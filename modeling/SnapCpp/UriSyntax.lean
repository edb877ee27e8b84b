import SnapCpp.TldUri

/-!
The syntax that `tld_check_uri()` is documented to accept, and the one that it accepts. A
URI is made of a protocol, a user name with its password, a host, a port and the rest from
the first slash on. The function accepts a URI without a protocol when all protocols are
allowed, refuses user names of one character, and reads beyond a URI without a colon.
-/
namespace SnapCpp.UriSyntax

open TldEmails TldUri Pieces

/-- Bytes in which every percent sign stands in front of two digits. -/
inductive Encoded (plain : UInt8 → Prop) (escape : UInt8 → UInt8 → Prop) : Bytes → Prop
  | nil : Encoded plain escape []
  | plain {c : UInt8} {s : Bytes} (hne : c ≠ 0x25) (hc : plain c) (h : Encoded plain escape s) :
      Encoded plain escape (c :: s)
  | escape {d e : UInt8} {s : Bytes} (hde : escape d e) (h : Encoded plain escape s) :
      Encoded plain escape (0x25 :: d :: e :: s)

structure Uri where
  protocol : Bytes
  user : Option (Bytes × Option Bytes)
  host : Bytes
  port : Option Bytes
  rest : Option Bytes

def behind (c : UInt8) : Option Bytes → Bytes
  | none => []
  | some s => c :: s

def userText : Option (Bytes × Option Bytes) → Bytes
  | none => []
  | some (name, password) => name ++ behind 0x3A password ++ [0x40]

def Uri.authority (u : Uri) : Bytes := userText u.user ++ (u.host ++ behind 0x3A u.port)

def Uri.text (u : Uri) : Bytes :=
  u.protocol ++ 0x3A :: 0x2F :: 0x2F :: (u.authority ++ behind 0x2F u.rest)

def Listed (protocols protocol : Bytes) : Prop :=
  [0x2A] ∈ protocols.splitOn 0x2C ∨
    protocol ≠ [] ∧ ∃ name ∈ protocols.splitOn 0x2C, name.map tolower = protocol.map tolower

def PlainDomain (flags : Int32) (c : UInt8) : Prop :=
  0x20 < c ∧ c ≠ 0x2B ∧ c ≠ 0x2F ∧ (asciiOnly flags = true → c < 0x80)

def PlainAddress (flags : Int32) (c : UInt8) : Prop :=
  0x20 ≤ c ∧ (noSpaces flags = true → c ≠ 0x20 ∧ c ≠ 0x2B) ∧ (asciiOnly flags = true → c < 0x80)

def IsHexDigit (c : UInt8) : Prop :=
  0x30 ≤ c ∧ c ≤ 0x39 ∨ 0x41 ≤ c ∧ c ≤ 0x46 ∨ 0x61 ≤ c ∧ c ≤ 0x66

def Escape (flags : Int32) (refuseSpace : Bool) (d e : UInt8) : Prop :=
  IsHexDigit d ∧ 0x32 ≤ d ∧ IsHexDigit e ∧ (refuseSpace = true → ¬(d = 0x32 ∧ e = 0x30)) ∧
    (asciiOnly flags = true → d < 0x38)

/-- An ampersand outside of the anchor is behind a question mark. The name of a variable
starts behind a question mark, and behind an ampersand outside of the anchor, and is not
empty when an equal sign follows. -/
structure Query (rest : Bytes) : Prop where
  ampersand : ∀ front back, rest = front ++ 0x26 :: back → 0x23 ∈ front ∨ 0x3F ∈ front
  name : ∀ front c back, rest = front ++ c :: 0x3D :: back →
    c ≠ 0x3F ∧ (c = 0x26 → 0x23 ∈ front)

/-- The documented syntax, but that the protocol may be empty when all are allowed. -/
structure Sound (protocols : Bytes) (flags : Int32) (u : Uri) : Prop where
  protocol : ∀ c ∈ u.protocol, isProtocol c = true
  listed : Listed protocols u.protocol
  authority : Encoded (PlainDomain flags) (Escape flags true) u.authority
  user : ∀ name password, u.user = some (name, password) → name ≠ [] ∧ 0x3A ∉ name ∧ 0x40 ∉ name ∧
    ∀ s, password = some s → s ≠ [] ∧ 0x40 ∉ s
  host : u.host ≠ [] ∧ u.host.length < 256 ∧ 0x3A ∉ u.host ∧ 0x40 ∉ u.host
  port : ∀ digits, u.port = some digits → digits ≠ [] ∧ ∀ c ∈ digits, 0x30 ≤ c ∧ c ≤ 0x39
  rest : ∀ s, u.rest = some s →
    Encoded (PlainAddress flags) (Escape flags (noSpaces flags)) s ∧ Query s

/-- No character is read beyond the end, and the checks pass exactly for the documented
syntax. -/
structure AsDocumented (protocols : Bytes) (flags : Int32) (uri : Bytes) : Prop where
  inside : checkSyntax protocols flags uri ≠ .outside
  accepts : (∃ start host, checkSyntax protocols flags uri = .passed start host) ↔
    ∃ u : Uri, u.text = uri ∧ Sound protocols flags u ∧ u.protocol ≠ []

structure Regular (protocols : Bytes) (flags : Int32) (uri : Bytes) : Prop where
  colon : uri ≠ [] → (∀ c ∈ uri, isProtocol c = true) → ¬Listed protocols uri
  parts : ∀ u : Uri, u.text = uri → Sound protocols flags u →
    (u.protocol = [] ↔ ∃ c password, u.user = some ([c], password))

section Protocols

variable {protocol rest q : Bytes}

theorem isProtocol_ne {c : UInt8} (h : isProtocol c = true) :
    c ≠ 0x2C ∧ c ≠ 0x3A ∧ tolower c ≠ tolower 0x2C ∧ tolower c ≠ tolower 0x3A := by
  revert c
  decide +kernel

theorem strncasecmp_iff (protocol rest q : Bytes) :
    strncasecmp protocol.length (protocol ++ rest) q = true ↔
      (q.take protocol.length).map tolower = protocol.map tolower := by
  induction protocol generalizing q with
  | nil => simp [strncasecmp]
  | cons c protocol ih =>
    cases q with
    | nil => simp [strncasecmp]
    | cons d q =>
      rw [List.length_cons, List.cons_append, strncasecmp, Bool.and_eq_true, beq_iff_eq, ih,
        List.take_succ_cons, List.map_cons, List.map_cons, List.cons.injEq]
      exact and_congr_left fun _ => eq_comm

theorem takeWhile_comma {a : Bytes} (ha : 0x2C ∉ a) (hq : ends q = true) :
    (a ++ q).takeWhile (· ≠ 0x2C) = a := by
  have hall : ∀ c ∈ a, decide (c ≠ 0x2C) = true := by
    intro c hc
    rw [decide_eq_true_eq]
    rintro rfl
    exact ha hc
  rw [List.takeWhile_append_of_pos hall]
  cases q with
  | nil => simp
  | cons c q =>
    have hc : c = 0x2C := by simpa [ends] using hq
    simp [hc]

theorem ends_dropWhile (q : Bytes) : ends (q.dropWhile (· ≠ 0x2C)) = true := by
  induction q with
  | nil => rfl
  | cons c q ih =>
    by_cases hc : c = 0x2C
    · simp [hc, ends]
    · rw [List.dropWhile_cons_of_pos (by simpa using hc)]
      exact ih

/-- The test of one protocol of the list. -/
theorem matches_iff (hprotocol : ∀ c ∈ protocol, isProtocol c = true) (rest q : Bytes) :
    (strncasecmp protocol.length (protocol ++ rest) q = true ∧
        ends (q.drop protocol.length) = true) ↔
      (q.takeWhile (· ≠ 0x2C)).map tolower = protocol.map tolower := by
  rw [strncasecmp_iff]
  constructor
  · rintro ⟨htake, hends⟩
    have hcomma : 0x2C ∉ q.take protocol.length := by
      intro hmem
      have hmap : tolower 0x2C ∈ protocol.map tolower := htake ▸ List.mem_map_of_mem hmem
      obtain ⟨c, hc, heq⟩ := List.mem_map.mp hmap
      exact (isProtocol_ne (hprotocol c hc)).2.2.1 heq
    have hsplit := takeWhile_comma hcomma hends
    rw [List.take_append_drop] at hsplit
    rw [hsplit, htake]
  · intro hname
    have hlength : (q.takeWhile (· ≠ 0x2C)).length = protocol.length := by
      simpa using congrArg List.length hname
    have hsplit : q.takeWhile (· ≠ 0x2C) ++ q.dropWhile (· ≠ 0x2C) = q :=
      List.takeWhile_append_dropWhile
    have htake : q.take protocol.length = q.takeWhile (· ≠ 0x2C) := by
      conv_lhs => rw [← hsplit]
      rw [← hlength, List.take_left]
    have hdrop : q.drop protocol.length = q.dropWhile (· ≠ 0x2C) := by
      conv_lhs => rw [← hsplit]
      rw [← hlength, List.drop_left]
    rw [htake, hdrop]
    exact ⟨hname, ends_dropWhile q⟩

theorem listed_singleton {name : Bytes} (hname : 0x2C ∉ name) (protocol : Bytes) :
    Listed name protocol ↔
      name = [0x2A] ∨ protocol ≠ [] ∧ name.map tolower = protocol.map tolower := by
  have hsplit : name.splitOn 0x2C = [name] := List.splitOn_eq_singleton hname
  rw [Listed, hsplit, List.mem_singleton, eq_comm]
  simp

theorem listed_cons {name : Bytes} (hname : 0x2C ∉ name) (q protocol : Bytes) :
    Listed (name ++ 0x2C :: q) protocol ↔
      (name = [0x2A] ∨ protocol ≠ [] ∧ name.map tolower = protocol.map tolower) ∨
        Listed q protocol := by
  have hsplit : (name ++ 0x2C :: q).splitOn 0x2C = name :: q.splitOn 0x2C :=
    List.splitOn_append_cons_self_of_not_mem hname q
  rw [Listed, Listed, hsplit]
  simp only [List.mem_cons, exists_eq_or_imp]
  rw [eq_comm, and_or_left]
  tauto

theorem listed_dropCommas (q protocol : Bytes) :
    Listed (q.dropWhile (· = 0x2C)) protocol ↔ Listed q protocol := by
  induction q with
  | nil => rfl
  | cons c q ih =>
    by_cases hc : c = 0x2C
    · rw [List.dropWhile_cons_of_pos (by simpa using hc), ih, hc]
      have hcons := @listed_cons [] (by simp) q protocol
      rw [List.nil_append] at hcons
      rw [hcons]
      constructor
      · exact .inr
      · rintro ((h | ⟨hne, hmap⟩) | h)
        · cases h
        · exact absurd (List.map_eq_nil_iff.mp hmap.symm) hne
        · exact h
    · rw [List.dropWhile_cons_of_neg (by simpa using hc)]

theorem not_listed_nil (protocol : Bytes) : ¬Listed [] protocol := by
  rw [listed_singleton (by simp)]
  rintro (h | ⟨hprotocol, hmap⟩)
  · cases h
  · exact hprotocol (List.map_eq_nil_iff.mp hmap.symm)

theorem listed_first (q protocol : Bytes) :
    Listed q protocol ↔ (q.takeWhile (· ≠ 0x2C) = [0x2A] ∨
        protocol ≠ [] ∧ (q.takeWhile (· ≠ 0x2C)).map tolower = protocol.map tolower) ∨
      q.dropWhile (· ≠ 0x2C) ≠ [] ∧
        Listed ((q.dropWhile (· ≠ 0x2C)).dropWhile (· = 0x2C)) protocol := by
  have hsplit : q.takeWhile (· ≠ 0x2C) ++ q.dropWhile (· ≠ 0x2C) = q :=
    List.takeWhile_append_dropWhile
  have hname : 0x2C ∉ q.takeWhile (· ≠ 0x2C) := by
    intro hmem
    simpa using List.mem_takeWhile_imp hmem
  cases htail : q.dropWhile (· ≠ 0x2C) with
  | nil =>
    rw [htail, List.append_nil] at hsplit
    rw [hsplit] at hname ⊢
    simp [listed_singleton hname]
  | cons c tail =>
    have hends := ends_dropWhile q
    rw [htail] at hsplit hends
    have hc : c = 0x2C := by simpa [ends] using hends
    rw [hc] at hsplit ⊢
    have hcons := listed_cons hname tail protocol
    rw [hsplit] at hcons
    rw [hcons, listed_dropCommas]
    have hcomma := @listed_cons [] (by simp) tail protocol
    rw [List.nil_append] at hcomma
    simp only [ne_eq, reduceCtorEq, not_false_eq_true, true_and]
    refine or_congr_right ⟨fun h => hcomma.mpr (.inr h), fun h => ?_⟩
    rw [← listed_dropCommas, List.dropWhile_cons_of_pos (by simp), listed_dropCommas] at h
    exact h

theorem star_iff (d : UInt8) (q : Bytes) :
    (d = 0x2A ∧ ends q = true) ↔ (d :: q).takeWhile (· ≠ 0x2C) = [0x2A] := by
  constructor
  · rintro ⟨rfl, hends⟩
    exact @takeWhile_comma q [0x2A] (by decide) hends
  · intro hname
    rw [List.takeWhile_cons] at hname
    split_ifs at hname with hd
    obtain ⟨rfl, hnil⟩ := List.cons.inj hname
    refine ⟨rfl, ?_⟩
    cases q with
    | nil => rfl
    | cons c q =>
      rw [List.takeWhile_cons] at hnil
      split_ifs at hnil with hc
      have hcomma : c = 0x2C := by simpa using hc
      simp [ends, hcomma]

/-- The name at the start of a list is the protocol. -/
theorem first_iff (hprotocol : ∀ c ∈ protocol, isProtocol c = true)
    (hrest : rest = [] ∨ rest.head? = some 0x3A) (hne : protocol ++ rest ≠ []) (d : UInt8)
    (q : Bytes) : (tolower d = tolower ((protocol ++ rest).headD 0) ∧
        strncasecmp protocol.length (protocol ++ rest) (d :: q) = true ∧
        ends ((d :: q).drop protocol.length) = true) ↔
      protocol ≠ [] ∧ ((d :: q).takeWhile (· ≠ 0x2C)).map tolower = protocol.map tolower := by
  rw [matches_iff hprotocol]
  refine ⟨fun ⟨hhead, hmatches⟩ => ⟨?_, hmatches⟩, fun ⟨hprotocol, hmatches⟩ => ⟨?_, hmatches⟩⟩
  · rintro rfl
    rw [List.nil_append] at hne hhead
    have hcolon : rest.head? = some 0x3A := hrest.resolve_left hne
    rw [List.headD_eq_head?_getD, hcolon] at hhead
    have hnil := List.map_eq_nil_iff.mp hmatches
    rw [List.takeWhile_cons] at hnil
    split_ifs at hnil with hd
    have hcomma : d = 0x2C := by simpa using hd
    rw [hcomma] at hhead
    exact absurd hhead (by decide)
  · obtain ⟨c, protocol, rfl⟩ := List.exists_cons_of_ne_nil hprotocol
    rw [List.takeWhile_cons] at hmatches
    split_ifs at hmatches with hd
    · exact (List.cons.inj hmatches).1
    · cases hmatches

theorem protocolValid_iff (hprotocol : ∀ c ∈ protocol, isProtocol c = true)
    (hrest : rest = [] ∨ rest.head? = some 0x3A) (hne : protocol ++ rest ≠ []) (turns : ℕ)
    (hturns : q.length < turns) :
    protocolValid (protocol ++ rest) protocol.length turns q = true ↔ Listed q protocol := by
  induction turns generalizing q with
  | zero => omega
  | succ turns ih =>
    cases q with
    | nil =>
      rw [protocolValid]
      exact iff_of_false Bool.false_ne_true (not_listed_nil protocol)
    | cons d q =>
      have hshorter : (((d :: q).dropWhile (· ≠ 0x2C)).dropWhile (· = 0x2C)).length < turns := by
        have hle : (((d :: q).dropWhile (· ≠ 0x2C)).dropWhile (· = 0x2C)).length ≤ q.length := by
          by_cases hd : d = 0x2C
          · rw [List.dropWhile_cons_of_neg (by simpa using hd),
              List.dropWhile_cons_of_pos (by simpa using hd)]
            exact (List.dropWhile_suffix _).length_le
          · rw [List.dropWhile_cons_of_pos (by simpa using hd)]
            exact ((List.dropWhile_suffix _).trans (List.dropWhile_suffix _)).length_le
        rw [List.length_cons] at hturns
        omega
      have hstar := star_iff d q
      have hfirst := first_iff hprotocol hrest hne d q
      have hlast := ih hshorter
      rw [listed_first, ← hstar, ← hfirst, protocolValid]
      by_cases hall : d = 0x2A ∧ ends q = true
      · rw [if_pos (by simpa using hall)]
        exact iff_of_true rfl (.inl (.inl hall))
      · rw [if_neg (by simpa using hall)]
        by_cases hmatches : tolower d = tolower ((protocol ++ rest).headD 0) ∧
            strncasecmp protocol.length (protocol ++ rest) (d :: q) = true ∧
            ends ((d :: q).drop protocol.length) = true
        · rw [if_pos (by simpa [and_assoc] using hmatches)]
          exact iff_of_true rfl (.inl (.inr hmatches))
        · rw [if_neg (by simpa [and_assoc] using hmatches), hlast]
          constructor
          · intro h
            refine .inr ⟨?_, h⟩
            intro hnil
            rw [hnil] at h
            exact not_listed_nil protocol h
          · rintro ((h | h) | ⟨-, h⟩)
            · exact absurd h hall
            · exact absurd h hmatches
            · exact h

theorem skipProtocol_iff {p uri : Bytes} : skipProtocol p = some uri ↔
    ∃ protocol, p = protocol ++ uri ∧ (∀ c ∈ protocol, isProtocol c = true) ∧
      (uri = [] ∨ uri.head? = some 0x3A) := by
  induction p with
  | nil =>
    rw [skipProtocol]
    constructor
    · intro h
      obtain rfl := Option.some.inj h
      exact ⟨[], rfl, by simp, .inl rfl⟩
    · rintro ⟨protocol, hp, -, -⟩
      rw [(List.append_eq_nil_iff.mp hp.symm).2]
  | cons c p ih =>
    rw [skipProtocol]
    split_ifs with hcolon hprotocol
    · constructor
      · intro h
        obtain rfl := Option.some.inj h
        exact ⟨[], rfl, by simp, .inr (by rw [hcolon]; rfl)⟩
      · rintro ⟨protocol, hp, hall, huri⟩
        cases protocol with
        | nil => rw [hp, List.nil_append]
        | cons d protocol =>
          obtain ⟨rfl, -⟩ := List.cons.inj hp
          exact absurd hcolon (isProtocol_ne (hall c List.mem_cons_self)).2.1
    · rw [ih]
      constructor
      · rintro ⟨protocol, rfl, hall, huri⟩
        exact ⟨c :: protocol, rfl, List.forall_mem_cons.mpr ⟨hprotocol, hall⟩, huri⟩
      · rintro ⟨protocol, hp, hall, huri⟩
        cases protocol with
        | nil =>
          rw [List.nil_append] at hp
          rw [← hp] at huri
          rcases huri with h | h
          · cases h
          · exact absurd (Option.some.inj h) hcolon
        | cons d protocol =>
          obtain ⟨rfl, rfl⟩ := List.cons.inj hp
          exact ⟨protocol, rfl, (List.forall_mem_cons.mp hall).2, huri⟩
    · refine iff_of_false (by simp) ?_
      rintro ⟨protocol, hp, hall, huri⟩
      cases protocol with
      | nil =>
        rw [List.nil_append] at hp
        rw [← hp] at huri
        rcases huri with h | h
        · cases h
        · exact absurd (Option.some.inj h) hcolon
      | cons d protocol =>
        obtain ⟨rfl, -⟩ := List.cons.inj hp
        exact hprotocol (hall c List.mem_cons_self)

end Protocols

section Encoding

variable {plain : UInt8 → Prop} {escape : UInt8 → UInt8 → Prop} {a b : Bytes} {c : UInt8}

theorem Encoded.append (ha : Encoded plain escape a) (hb : Encoded plain escape b) :
    Encoded plain escape (a ++ b) := by
  induction ha with
  | nil => exact hb
  | plain hne hc _ ih => exact .plain hne hc ih
  | escape hde _ ih => exact .escape hde ih

theorem Encoded.split (hc : ∀ d e, escape d e → c ≠ d ∧ c ≠ e)
    (h : Encoded plain escape (a ++ c :: b)) :
    Encoded plain escape a ∧ Encoded plain escape (c :: b) := by
  generalize hs : a ++ c :: b = s at h
  induction h generalizing a with
  | nil => simp at hs
  | @plain x s hne hx h ih =>
    cases a with
    | nil =>
      rw [List.nil_append] at hs
      rw [hs]
      exact ⟨.nil, .plain hne hx h⟩
    | cons y a =>
      obtain ⟨rfl, htail⟩ := List.cons.inj hs
      obtain ⟨hleft, hright⟩ := ih htail
      exact ⟨.plain hne hx hleft, hright⟩
  | @escape d e s hde h ih =>
    cases a with
    | nil =>
      rw [List.nil_append] at hs
      rw [hs]
      exact ⟨.nil, .escape hde h⟩
    | cons y a =>
      obtain ⟨rfl, htail⟩ := List.cons.inj hs
      cases a with
      | nil => exact absurd (List.cons.inj htail).1 (hc d e hde).1
      | cons y a =>
        obtain ⟨rfl, hrest⟩ := List.cons.inj htail
        cases a with
        | nil => exact absurd (List.cons.inj hrest).1 (hc y e hde).2
        | cons z a =>
          obtain ⟨rfl, hlast⟩ := List.cons.inj hrest
          obtain ⟨hleft, hright⟩ := ih hlast
          exact ⟨.escape hde hleft, hright⟩

theorem Encoded.tail (hne : c ≠ 0x25) (h : Encoded plain escape (c :: b)) :
    plain c ∧ Encoded plain escape b := by
  cases h with
  | plain _ hc h => exact ⟨hc, h⟩
  | escape => exact absurd rfl hne

theorem Encoded.notMem (hplain : ¬plain c) (hne : c ≠ 0x25)
    (hc : ∀ d e, escape d e → c ≠ d ∧ c ≠ e) (h : Encoded plain escape a) : c ∉ a := by
  intro hmem
  obtain ⟨front, back, rfl⟩ := List.append_of_mem hmem
  exact hplain ((h.split hc).2.tail hne).1

theorem isHexDigit_ne {d : UInt8} (hc : IsHexDigit c)
    (hd : d < 0x30 ∨ 0x39 < d ∧ d < 0x41) : d ≠ c := by
  rintro rfl
  unfold IsHexDigit at hc
  simp only [UInt8.lt_iff_toNat_lt, UInt8.le_iff_toNat_le, UInt8.reduceToNat] at hc hd
  omega

theorem escape_ne {flags : Int32} {refuseSpace : Bool} {c d e : UInt8}
    (hc : c < 0x30 ∨ 0x39 < c ∧ c < 0x41) (h : Escape flags refuseSpace d e) : c ≠ d ∧ c ≠ e :=
  ⟨isHexDigit_ne h.1 hc, isHexDigit_ne h.2.2.1 hc⟩

theorem escapeValid_iff {flags : Int32} {refuseSpace : Bool} {d e : UInt8} :
    escapeValid flags refuseSpace d e = true ↔ Escape flags refuseSpace d e := by
  have hhigh : isHighDigit d = true ↔ IsHexDigit d ∧ 0x32 ≤ d := by
    unfold isHighDigit IsHexDigit
    simp only [Bool.or_eq_true, Bool.and_eq_true, decide_eq_true_eq, UInt8.le_iff_toNat_le,
      UInt8.reduceToNat]
    omega
  have hlow : isLowDigit e = true ↔ IsHexDigit e := by
    unfold isLowDigit IsHexDigit
    simp only [Bool.or_eq_true, Bool.and_eq_true, decide_eq_true_eq, UInt8.le_iff_toNat_le,
      UInt8.reduceToNat]
    omega
  have hascii : ¬0x38 ≤ d ↔ d < 0x38 := UInt8.not_le
  unfold escapeValid Escape
  simp only [Bool.and_eq_true, hhigh, hlow, Bool.not_eq_true', Bool.and_eq_false_imp,
    beq_iff_eq, decide_eq_false_iff_not, hascii]
  simp only [beq_eq_false_iff_ne, ne_eq]
  tauto

end Encoding

section Domain

variable {flags : Int32} {a s : Bytes} {username : Option Bytes} {host : Bytes}

def AtEnd (s : Bytes) : Prop := s = [] ∨ s.head? = some 0x2F

theorem scanDomain_cons (c : UInt8) (s : Bytes) (username : Option Bytes) (host : Bytes) :
    scanDomain flags (c :: s) username host =
      if c = 0x2F then some (username, host, c :: s)
      else if c < 0x20 then none
      else if c = 0x40 then
        if username.isSome then none else scanDomain flags s (some host) s
      else if 0x80 ≤ c then
        if asciiOnly flags then none else scanDomain flags s username host
      else if c = 0x20 ∨ c = 0x2B then none
      else if c = 0x25 then
        match s with
        | d :: e :: s =>
            if escapeValid flags true d e then scanDomain flags s username host else none
        | _ => none
      else scanDomain flags s username host := by
  match s with
  | [] => rfl
  | [_] => rfl
  | _ :: _ :: _ => rfl

theorem scanDomain_atEnd (h : AtEnd s) (username : Option Bytes) (host : Bytes) :
    scanDomain flags s username host = some (username, host, s) := by
  cases s with
  | nil => rfl
  | cons c s =>
    obtain rfl := Option.some.inj (h.resolve_left (List.cons_ne_nil c s))
    rw [scanDomain_cons, if_pos rfl]

/-- Nothing happens in the loop but at an at sign. -/
theorem scanDomain_encoded (ha : Encoded (PlainDomain flags) (Escape flags true) a)
    (hat : 0x40 ∉ a) (s : Bytes) (username : Option Bytes) (host : Bytes) :
    scanDomain flags (a ++ s) username host = scanDomain flags s username host := by
  induction ha with
  | nil => rfl
  | @plain c a hne hc _ ih =>
    obtain ⟨hspace, hplus, hslash, hascii⟩ := hc
    rw [List.mem_cons, not_or] at hat
    have hcontrol : ¬c < 0x20 := by
      rw [UInt8.not_lt]
      exact UInt8.le_of_lt hspace
    have hnospace : c ≠ 0x20 := by
      rintro rfl
      exact absurd hspace (by decide)
    rw [List.cons_append, scanDomain_cons, if_neg hslash, if_neg hcontrol, if_neg (Ne.symm hat.1)]
    by_cases hhigh : 0x80 ≤ c
    · have hflag : ¬asciiOnly flags = true := fun h => absurd (hascii h) (UInt8.not_lt.mpr hhigh)
      rw [if_pos hhigh, if_neg hflag]
      exact ih hat.2
    · rw [if_neg hhigh, if_neg (not_or.mpr ⟨hnospace, hplus⟩), if_neg hne]
      exact ih hat.2
  | @escape d e a hde _ ih =>
    simp only [List.mem_cons, not_or] at hat
    rw [List.cons_append, List.cons_append, List.cons_append, scanDomain_cons]
    rw [if_neg (by decide), if_neg (by decide), if_neg (by decide), if_neg (by decide),
      if_neg (by decide), if_pos rfl]
    show (if escapeValid flags true d e then scanDomain flags (a ++ s) username host else none) = _
    rw [if_pos (escapeValid_iff.mpr hde)]
    exact ih hat.2.2.2

theorem scanDomain_at (s host : Bytes) :
    scanDomain flags (0x40 :: s) none host = scanDomain flags s (some host) s := by
  rw [scanDomain_cons, if_neg (by decide), if_neg (by decide), if_pos rfl, if_neg (by simp)]

/-- What the loop over the domain finds. -/
structure Scanned (flags : Int32) (s : Bytes) (username : Option Bytes) (host : Bytes)
    (found : Option Bytes × Bytes × Bytes) (a : Bytes) : Prop where
  split : s = a ++ found.2.2
  atEnd : AtEnd found.2.2
  encoded : Encoded (PlainDomain flags) (Escape flags true) a
  user : (0x40 ∉ a ∧ found.1 = username ∧ found.2.1 = host) ∨
    username = none ∧ ∃ user rest, a = user ++ 0x40 :: rest ∧ 0x40 ∉ user ∧ 0x40 ∉ rest ∧
      found.1 = some host ∧ found.2.1 = rest ++ found.2.2

theorem Scanned.cons {found : Option Bytes × Bytes × Bytes} {front : Bytes}
    (hfront : Encoded (PlainDomain flags) (Escape flags true) front) (hat : 0x40 ∉ front)
    (h : Scanned flags s username host found a) :
    Scanned flags (front ++ s) username host found (front ++ a) := by
  refine ⟨?_, h.atEnd, hfront.append h.encoded, ?_⟩
  · rw [h.split, List.append_assoc]
  · rcases h.user with ⟨hnone, husername, hhost⟩ | ⟨hnone, user, rest, rfl, huser, hrest, hfound⟩
    · refine .inl ⟨?_, husername, hhost⟩
      rw [List.mem_append, not_or]
      exact ⟨hat, hnone⟩
    · refine .inr ⟨hnone, front ++ user, rest, by rw [List.append_assoc], ?_, hrest, hfound⟩
      rw [List.mem_append, not_or]
      exact ⟨hat, huser⟩

theorem plainDomain_at : PlainDomain flags 0x40 :=
  ⟨by decide, by decide, by decide, fun _ => by decide⟩

theorem scanDomain_inv {found : Option Bytes × Bytes × Bytes}
    (h : scanDomain flags s username host = some found) :
    ∃ a, Scanned flags s username host found a := by
  fun_induction scanDomain flags s username host with
  | case1 username host =>
    obtain rfl := Option.some.inj h
    exact ⟨[], rfl, .inl rfl, .nil, .inl ⟨by simp, rfl, rfl⟩⟩
  | case2 uri username host =>
    obtain rfl := Option.some.inj h
    exact ⟨[], rfl, .inr rfl, .nil, .inl ⟨by simp, rfl, rfl⟩⟩
  | case5 uri username host husername _ _ ih =>
    obtain ⟨a, ha⟩ := ih h
    rcases ha.user with ⟨hat, hname, hhost⟩ | ⟨hnone, -⟩
    · refine ⟨0x40 :: a, ?_, ha.atEnd, .plain (by decide) plainDomain_at ha.encoded, .inr ?_⟩
      · rw [List.cons_append, ← ha.split]
      · refine ⟨by simpa using husername, [], a, rfl, by simp, hat, hname, ?_⟩
        rw [hhost, ← ha.split]
    · cases hnone
  | case7 c uri username host hslash hcontrol hat hhigh hascii ih =>
    obtain ⟨a, ha⟩ := ih h
    have hspace : 0x20 < c := UInt8.lt_of_lt_of_le (by decide) hhigh
    have hplus : c ≠ 0x2B := by
      rintro rfl
      exact absurd hhigh (by decide)
    have hpercent : c ≠ 0x25 := by
      rintro rfl
      exact absurd hhigh (by decide)
    exact ⟨c :: a, ha.cons (.plain hpercent ⟨hspace, hplus, hslash, fun h => absurd h hascii⟩ .nil)
      (by simpa using Ne.symm hat)⟩
  | case9 username host d e uri hescape _ _ _ _ _ ih =>
    obtain ⟨a, ha⟩ := ih h
    have hde := escapeValid_iff.mp hescape
    have hne := @escape_ne _ _ 0x40 _ _ (.inr (by decide)) hde
    exact ⟨0x25 :: d :: e :: a, ha.cons (.escape hde .nil) (by simpa using hne)⟩
  | case12 c uri username host hslash hcontrol hat hhigh hspace hpercent ih =>
    obtain ⟨a, ha⟩ := ih h
    rw [not_or] at hspace
    have hle : 0x20 < c := by
      rw [UInt8.not_lt, UInt8.le_iff_toNat_le] at hcontrol
      rw [UInt8.lt_iff_toNat_lt]
      have hne : c.toNat ≠ 0x20 := fun heq => hspace.1 (UInt8.toNat_inj.mp heq)
      simp only [UInt8.reduceToNat] at hcontrol ⊢
      omega
    exact ⟨c :: a, ha.cons (.plain hpercent ⟨hle, hspace.2, hslash, fun _ => UInt8.not_le.mp hhigh⟩
      .nil) (by simpa using Ne.symm hat)⟩
  | _ => cases h

end Domain

section Address

variable {flags : Int32} {c : UInt8} {s : Bytes} {queryString : Option Bytes} {anchor : Bool}

/-- Where the name of a variable starts once a byte is read. -/
def queryAfter (c : UInt8) (s : Bytes) (queryString : Option Bytes) (anchor : Bool) :
    Option Bytes :=
  if c = 0x3F ∨ c = 0x26 ∧ anchor = false then some s
  else if c = 0x23 then none
  else queryString

/-- What the rest of an address is to be in the middle of the loop. -/
structure QueryFrom (queryString : Option Bytes) (anchor : Bool) (s : Bytes) : Prop where
  ampersand : ∀ front back, s = front ++ 0x26 :: back →
    anchor = true ∨ queryString ≠ none ∨ 0x23 ∈ front ∨ 0x3F ∈ front
  name : ∀ front c back, s = front ++ c :: 0x3D :: back →
    c ≠ 0x3F ∧ (c = 0x26 → anchor = true ∨ 0x23 ∈ front)
  start : queryString.map List.length = some s.length → s.head? ≠ some 0x3D

theorem queryFrom_none (s : Bytes) : QueryFrom none false s ↔ Query s := by
  constructor
  · intro h
    exact ⟨fun front back hs => by simpa using h.ampersand front back hs,
      fun front c back hs => by simpa using h.name front c back hs⟩
  · intro h
    exact ⟨fun front back hs => by simpa using h.ampersand front back hs,
      fun front c back hs => by simpa using h.name front c back hs, fun h => by cases h⟩

theorem queryFrom_nil (queryString : Option Bytes) (anchor : Bool) :
    QueryFrom queryString anchor [] :=
  ⟨fun front back h => by simp at h, fun front c back h => by simp at h, fun _ => by simp⟩

theorem QueryFrom.tail (hlength : ∀ name, queryString = some name → s.length < name.length)
    (h : QueryFrom queryString anchor (c :: s)) :
    QueryFrom (queryAfter c s queryString anchor) (anchor || c == 0x23) s := by
  refine ⟨?_, ?_, ?_⟩
  · intro front back hs
    have hcons := h.ampersand (c :: front) back (by rw [hs, List.cons_append])
    simp only [List.mem_cons] at hcons
    unfold queryAfter
    split_ifs with hname hhash
    · exact .inr (.inl (by simp))
    · exact .inl (by simp [hhash])
    · rcases hcons with h | h | (h | h) | (h | h)
      · exact .inl (by simp [h])
      · exact .inr (.inl h)
      · exact absurd h.symm hhash
      · exact .inr (.inr (.inl h))
      · exact absurd (.inl h.symm) hname
      · exact .inr (.inr (.inr h))
  · intro front d back hs
    obtain ⟨hquestion, hampersand⟩ := h.name (c :: front) d back (by rw [hs, List.cons_append])
    refine ⟨hquestion, fun hd => ?_⟩
    rcases hampersand hd with h | h
    · exact .inl (by simp [h])
    · rcases List.mem_cons.mp h with h | h
      · exact .inl (by simp [← h])
      · exact .inr h
  · unfold queryAfter
    split_ifs with hname hhash
    · intro _ hhead
      obtain ⟨back, rfl⟩ := List.head?_eq_some_iff.mp hhead
      obtain ⟨hquestion, hampersand⟩ := h.name [] c back rfl
      rcases hname with hc | ⟨hc, hanchor⟩
      · exact hquestion hc
      · rcases hampersand hc with h | h
        · rw [hanchor] at h
          cases h
        · simp at h
    · intro h
      cases h
    · intro hsome
      obtain ⟨name, hname, heq⟩ := Option.map_eq_some_iff.mp hsome
      have hlt := hlength name hname
      omega

theorem QueryFrom.cons (hstart : c = 0x3D → queryString.map List.length ≠ some (c :: s).length)
    (hampersand : c = 0x26 → anchor = false → queryString ≠ none)
    (h : QueryFrom (queryAfter c s queryString anchor) (anchor || c == 0x23) s) :
    QueryFrom queryString anchor (c :: s) := by
  refine ⟨?_, ?_, ?_⟩
  · intro front back hs
    cases front with
    | nil =>
      obtain ⟨rfl, -⟩ := List.cons.inj hs
      cases anchor with
      | true => exact .inl rfl
      | false => exact .inr (.inl (hampersand rfl rfl))
    | cons d front =>
      obtain ⟨rfl, htail⟩ := List.cons.inj hs
      have hcons := h.ampersand front back htail
      rw [Bool.or_eq_true, beq_iff_eq] at hcons
      simp only [List.mem_cons]
      unfold queryAfter at hcons
      split_ifs at hcons with hname hhash
      · rcases hname with hc | ⟨hc, hanchor⟩
        · exact .inr (.inr (.inr (.inl hc.symm)))
        · exact .inr (.inl (hampersand hc hanchor))
      · exact .inr (.inr (.inl (.inl hhash.symm)))
      · rcases hcons with (h | h) | h | h | h
        · exact .inl h
        · exact absurd h hhash
        · exact .inr (.inl h)
        · exact .inr (.inr (.inl (.inr h)))
        · exact .inr (.inr (.inr (.inr h)))
  · intro front d back hs
    cases front with
    | nil =>
      obtain ⟨rfl, rfl⟩ := List.cons.inj hs
      have hequal : ¬(c = 0x3F ∨ c = 0x26 ∧ anchor = false) := by
        intro hname
        have hnext := h.start
        rw [queryAfter, if_pos hname] at hnext
        exact hnext rfl rfl
      rw [not_or, not_and, Bool.not_eq_false] at hequal
      exact ⟨hequal.1, fun hc => .inl (hequal.2 hc)⟩
    | cons x front =>
      obtain ⟨rfl, htail⟩ := List.cons.inj hs
      obtain ⟨hquestion, hbehind⟩ := h.name front d back htail
      refine ⟨hquestion, fun hd => ?_⟩
      rcases hbehind hd with h | h
      · rw [Bool.or_eq_true, beq_iff_eq] at h
        rcases h with h | h
        · exact .inl h
        · exact .inr (List.mem_cons.mpr (.inl h.symm))
      · exact .inr (List.mem_cons_of_mem c h)
  · intro hsome hhead
    exact hstart (Option.some.inj hhead) hsome

theorem queryFrom_cons (hlength : ∀ name, queryString = some name → s.length < name.length) :
    QueryFrom queryString anchor (c :: s) ↔
      (c = 0x3D → queryString.map List.length ≠ some (c :: s).length) ∧
      (c = 0x26 → anchor = false → queryString ≠ none) ∧
      QueryFrom (queryAfter c s queryString anchor) (anchor || c == 0x23) s := by
  refine ⟨fun h => ⟨?_, ?_, h.tail hlength⟩, fun ⟨hstart, hampersand, h⟩ =>
    .cons hstart hampersand h⟩
  · rintro rfl hsome
    exact h.start hsome rfl
  · rintro rfl hanchor
    rcases h.ampersand [] s rfl with h | h | h
    · rw [hanchor] at h
      cases h
    · exact h
    · simp at h

/-- A byte that means nothing in a query. -/
theorem queryFrom_other (hlength : ∀ name, queryString = some name → s.length < name.length)
    (hother : c ≠ 0x3F ∧ (c = 0x26 → anchor = true) ∧ c ≠ 0x3D ∧ c ≠ 0x23) :
    QueryFrom queryString anchor (c :: s) ↔ QueryFrom queryString anchor s := by
  obtain ⟨hquestion, hampersand, hequal, hhash⟩ := hother
  have hname : ¬(c = 0x3F ∨ c = 0x26 ∧ anchor = false) := by
    rintro (h | ⟨h, hanchor⟩)
    · exact hquestion h
    · rw [hampersand h] at hanchor
      cases hanchor
  have hsame : queryAfter c s queryString anchor = queryString := by
    rw [queryAfter, if_neg hname, if_neg hhash]
  rw [queryFrom_cons hlength, hsame, beq_eq_false_iff_ne.mpr hhash, Bool.or_false]
  constructor
  · exact fun h => h.2.2
  · intro h
    refine ⟨fun h => absurd h hequal, fun hc hanchor => ?_, h⟩
    rw [hampersand hc] at hanchor
    cases hanchor

theorem encoded_cons {plain : UInt8 → Prop} {escape : UInt8 → UInt8 → Prop} (hne : c ≠ 0x25) :
    Encoded plain escape (c :: s) ↔ plain c ∧ Encoded plain escape s :=
  ⟨fun h => h.tail hne, fun ⟨hc, h⟩ => .plain hne hc h⟩

theorem encoded_percent {plain : UInt8 → Prop} {escape : UInt8 → UInt8 → Prop} {d e : UInt8} :
    Encoded plain escape (0x25 :: d :: e :: s) ↔ escape d e ∧ Encoded plain escape s := by
  constructor
  · intro h
    cases h with
    | plain hne => exact absurd rfl hne
    | escape hde h => exact ⟨hde, h⟩
  · exact fun ⟨hde, h⟩ => .escape hde h

theorem plainAddress_of (hcontrol : ¬c < 0x20) (hspace : ¬(c = 0x2B ∨ c = 0x20))
    (hascii : asciiOnly flags = true → c < 0x80) : PlainAddress flags c := by
  rw [not_or] at hspace
  exact ⟨UInt8.not_lt.mp hcontrol, fun _ => ⟨hspace.2, hspace.1⟩, hascii⟩

/-- A byte that means nothing in a query is only to be allowed. -/
theorem other_iff (hlength : ∀ name, queryString = some name → (c :: s).length ≤ name.length)
    (hplain : PlainAddress flags c) (hpercent : c ≠ 0x25)
    (hother : c ≠ 0x3F ∧ (c = 0x26 → anchor = true) ∧ c ≠ 0x3D ∧ c ≠ 0x23)
    (ih : (∀ name, queryString = some name → s.length ≤ name.length) →
      (scanAddress flags s queryString anchor = true ↔
        Encoded (PlainAddress flags) (Escape flags (noSpaces flags)) s ∧
          QueryFrom queryString anchor s)) :
    scanAddress flags s queryString anchor = true ↔
      Encoded (PlainAddress flags) (Escape flags (noSpaces flags)) (c :: s) ∧
        QueryFrom queryString anchor (c :: s) := by
  have hshort : ∀ name, queryString = some name → s.length < name.length := hlength
  rw [encoded_cons hpercent, queryFrom_other hshort hother,
    ih fun name hname => (hshort name hname).le, and_assoc]
  exact (and_iff_right hplain).symm

/-- The loop over the rest of the address. -/
theorem scanAddress_iff (hlength : ∀ name, queryString = some name → s.length ≤ name.length) :
    scanAddress flags s queryString anchor = true ↔
      Encoded (PlainAddress flags) (Escape flags (noSpaces flags)) s ∧
        QueryFrom queryString anchor s := by
  fun_induction scanAddress flags s queryString anchor with
  | case1 queryString anchor => exact iff_of_true rfl ⟨.nil, queryFrom_nil queryString anchor⟩
  | case2 c s queryString anchor hcontrol =>
    have hpercent : c ≠ 0x25 := by
      rintro rfl
      exact absurd hcontrol (by decide)
    rw [encoded_cons hpercent]
    exact iff_of_false Bool.false_ne_true fun h => absurd hcontrol (UInt8.not_lt.mpr h.1.1.1)
  | case3 c s queryString anchor hcontrol hspace hflag =>
    have hpercent : c ≠ 0x25 := by
      rintro rfl
      exact absurd hspace (by decide)
    rw [encoded_cons hpercent]
    refine iff_of_false Bool.false_ne_true fun h => ?_
    obtain ⟨hblank, hplus⟩ := h.1.1.2.1 hflag
    exact hspace.elim hplus hblank
  | case4 c s queryString anchor hcontrol hspace hflag ih =>
    have hsigns : c ≠ 0x25 ∧ c ≠ 0x3F ∧ c ≠ 0x26 ∧ c ≠ 0x3D ∧ c ≠ 0x23 ∧ c < 0x80 := by
      rcases hspace with rfl | rfl <;> decide
    obtain ⟨hpercent, hquestion, hampersand, hequal, hhash, hascii⟩ := hsigns
    have hplain : PlainAddress flags c :=
      ⟨UInt8.not_lt.mp hcontrol, fun h => absurd h hflag, fun _ => hascii⟩
    exact other_iff hlength hplain hpercent
      ⟨hquestion, fun h => absurd h hampersand, hequal, hhash⟩ ih
  | case5 s queryString anchor _ _ ih =>
    have hplain : PlainAddress flags 0x3F :=
      plainAddress_of (by decide) (by decide) fun _ => by decide
    rw [encoded_cons (by decide), queryFrom_cons hlength, queryAfter, if_pos (.inl rfl),
      ih fun name hname => (Option.some.inj hname) ▸ le_rfl]
    simp [hplain]
  | case6 c s anchor _ _ _ hampersand =>
    refine iff_of_false Bool.false_ne_true fun h => ?_
    exact ((queryFrom_cons hlength).mp h.2).2.1 hampersand.1 hampersand.2 rfl
  | case7 c s queryString anchor hcontrol hspace hquestion hampersand hsome ih =>
    obtain ⟨rfl, rfl⟩ := hampersand
    have hplain : PlainAddress flags 0x26 := plainAddress_of hcontrol hspace fun _ => by decide
    rw [encoded_cons (by decide), queryFrom_cons hlength, queryAfter, if_pos (.inr ⟨rfl, rfl⟩),
      ih fun name hname => (Option.some.inj hname) ▸ le_rfl]
    simp [hplain, hsome]
  | case8 s queryString anchor _ _ _ _ hstart =>
    refine iff_of_false Bool.false_ne_true fun h => ?_
    exact ((queryFrom_cons hlength).mp h.2).1 rfl hstart
  | case9 s queryString anchor hcontrol hspace _ _ hstart ih =>
    have hplain : PlainAddress flags 0x3D := plainAddress_of hcontrol hspace fun _ => by decide
    have hshort : ∀ name, queryString = some name → s.length < name.length := hlength
    rw [encoded_cons (by decide), queryFrom_cons hlength, queryAfter, if_neg (by simp),
      if_neg (by decide), ih fun name hname => (hshort name hname).le]
    have hanchor : (anchor || (0x3D : UInt8) == 0x23) = anchor := Bool.or_false anchor
    rw [hanchor]
    exact ⟨fun h => ⟨⟨hplain, h.1⟩, fun _ => hstart, fun h => absurd h (by decide), h.2⟩,
      fun h => ⟨h.1.2, h.2.2.2⟩⟩
  | case10 s queryString anchor hcontrol hspace _ _ _ ih =>
    have hplain : PlainAddress flags 0x23 := plainAddress_of hcontrol hspace fun _ => by decide
    rw [encoded_cons (by decide), queryFrom_cons hlength, queryAfter, if_neg (by simp),
      if_pos rfl, ih fun name hname => by cases hname]
    simp [hplain]
  | case11 queryString anchor d e s hescape _ _ _ _ _ _ ih =>
    have hde := escapeValid_iff.mp hescape
    have hshort : ∀ name, queryString = some name → (d :: e :: s).length < name.length := hlength
    have hsigns : ∀ c, c < 0x30 ∨ 0x39 < c ∧ c < 0x41 → d ≠ c ∧ e ≠ c := by
      intro c hc
      exact ⟨(escape_ne hc hde).1.symm, (escape_ne hc hde).2.symm⟩
    have hquestion := hsigns 0x3F (by decide)
    have hampersand := hsigns 0x26 (by decide)
    have hequal := hsigns 0x3D (by decide)
    have hhash := hsigns 0x23 (by decide)
    rw [encoded_percent, queryFrom_other hshort (by simp),
      queryFrom_other (fun name hname => (Nat.lt_succ_self _).trans (hshort name hname))
        ⟨hquestion.1, fun h => absurd h hampersand.1, hequal.1, hhash.1⟩,
      queryFrom_other (fun name hname => (Nat.lt_succ_self _).trans
        ((Nat.lt_succ_self _).trans (hshort name hname)))
        ⟨hquestion.2, fun h => absurd h hampersand.2, hequal.2, hhash.2⟩,
      ih fun name hname => ?_]
    · simp [hde]
    · have hlt := hshort name hname
      simp only [List.length_cons] at hlt
      omega
  | case12 queryString anchor d e s hescape =>
    rw [encoded_percent, ← escapeValid_iff]
    exact iff_of_false Bool.false_ne_true fun h => hescape h.1.1
  | case13 s queryString anchor hdigits =>
    refine iff_of_false Bool.false_ne_true fun h => ?_
    cases h.1 with
    | plain hne => exact hne rfl
    | escape => exact hdigits _ _ _ rfl
  | case14 c s queryString anchor _ _ _ _ _ _ hpercent hhigh hflag =>
    rw [encoded_cons hpercent]
    exact iff_of_false Bool.false_ne_true fun h => absurd (h.1.1.2.2 hflag) (UInt8.not_lt.mpr hhigh)
  | case15 c s queryString anchor hcontrol hspace hquestion hampersand hequal hhash hpercent hhigh
      hflag ih =>
    have hplain : PlainAddress flags c :=
      plainAddress_of hcontrol hspace fun h => absurd h hflag
    exact other_iff hlength hplain hpercent
      ⟨hquestion, by simpa using hampersand, hequal, hhash⟩ ih
  | case16 c s queryString anchor hcontrol hspace hquestion hampersand hequal hhash hpercent hhigh
      ih =>
    have hplain : PlainAddress flags c :=
      plainAddress_of hcontrol hspace fun _ => UInt8.not_le.mp hhigh
    exact other_iff hlength hplain hpercent
      ⟨hquestion, by simpa using hampersand, hequal, hhash⟩ ih

end Address

section Authority

variable {name host digits tail : Bytes} {password port : Option Bytes}

theorem userValid_iff (hcolon : 0x3A ∉ name) (hat : 0x40 ∉ name) :
    userValid (name ++ behind 0x3A password ++ 0x40 :: host) host = true ↔
      2 ≤ name.length ∧ password ≠ some [] := by
  have hname : ∀ c ∈ name, (c ≠ 0x40 && c ≠ 0x3A) = true := by
    intro c hc
    rw [Bool.and_eq_true, decide_eq_true_eq, decide_eq_true_eq]
    constructor
    · rintro rfl
      exact hat hc
    · rintro rfl
      exact hcolon hc
  unfold userValid
  rw [List.append_assoc, List.dropWhile_append_of_pos hname]
  cases password with
  | none =>
    have hstop : (behind 0x3A none ++ 0x40 :: host).dropWhile (fun c => c ≠ 0x40 && c ≠ 0x3A) =
        0x40 :: host := by
      simp [behind]
    rw [hstop]
    simp [behind, Nat.succ_le_iff]
  | some password =>
    have hstop : (behind 0x3A (some password) ++ 0x40 :: host).dropWhile
        (fun c => c ≠ 0x40 && c ≠ 0x3A) = 0x3A :: (password ++ 0x40 :: host) := by
      simp [behind]
    rw [hstop]
    simpa [behind, Nat.succ_le_iff] using and_comm

theorem portOf_eq (hhost : 0x3A ∉ host) (htail : AtEnd tail) :
    portOf tail (host ++ (behind 0x3A port ++ tail)) = behind 0x3A port ++ tail := by
  induction host with
  | nil =>
    cases port with
    | some digits =>
      show portOf tail (0x3A :: (digits ++ tail)) = _
      rw [portOf, if_neg (by simp)]
      rfl
    | none =>
      show portOf tail tail = tail
      cases tail with
      | nil => rfl
      | cons c s => rw [portOf, if_neg (by simp)]
  | cons c host ih =>
    rw [List.mem_cons, not_or] at hhost
    have hlength : tail.length < (c :: (host ++ (behind 0x3A port ++ tail))).length := by
      simp only [List.length_cons, List.length_append]
      omega
    rw [List.cons_append, portOf, if_pos]
    · exact ih hhost.2
    · rw [Bool.and_eq_true, decide_eq_true_eq, decide_eq_true_eq]
      exact ⟨Ne.symm hhost.1, hlength⟩

theorem portValid_iff (htail : AtEnd tail) : portValid (behind 0x3A port ++ tail) tail = true ↔
    ∀ digits, port = some digits → digits ≠ [] ∧ ∀ c ∈ digits, 0x30 ≤ c ∧ c ≤ 0x39 := by
  cases port with
  | none =>
    refine iff_of_true ?_ fun digits h => by cases h
    rcases htail with rfl | htail
    · rfl
    · obtain ⟨s, rfl⟩ := List.head?_eq_some_iff.mp htail
      rfl
  | some digits =>
    have hstop : tail.dropWhile (fun c => 0x30 ≤ c && c ≤ 0x39) = tail := by
      rcases htail with rfl | htail
      · rfl
      · obtain ⟨s, rfl⟩ := List.head?_eq_some_iff.mp htail
        rw [List.dropWhile_cons_of_neg (by decide)]
    have hdigits : (∀ c ∈ digits, 0x30 ≤ c ∧ c ≤ 0x39) ↔
        digits.dropWhile (fun c => 0x30 ≤ c && c ≤ 0x39) = [] := by
      rw [List.dropWhile_eq_nil_iff]
      simp
    show ((digits ++ tail).dropWhile (fun c => 0x30 ≤ c && c ≤ 0x39)).length == tail.length &&
      ((digits ++ tail).dropWhile (fun c => 0x30 ≤ c && c ≤ 0x39)).length !=
        (digits ++ tail).length ↔ _
    simp only [Option.some.injEq, forall_eq']
    rw [hdigits, List.dropWhile_append, hstop]
    by_cases hall : digits.dropWhile (fun c => 0x30 ≤ c && c ≤ 0x39) = []
    · simp [hall]
    · simp [hall]

/-- The loop over the rest, which starts at the slash. -/
theorem addressValid_iff {flags : Int32} {rest : Option Bytes} :
    scanAddress flags (behind 0x2F rest) none false = true ↔ ∀ s, rest = some s →
      Encoded (PlainAddress flags) (Escape flags (noSpaces flags)) s ∧ Query s := by
  cases rest with
  | none => exact iff_of_true rfl fun s h => by cases h
  | some s =>
    have hplain : PlainAddress flags 0x2F :=
      plainAddress_of (by decide) (by decide) fun _ => by decide
    show scanAddress flags (0x2F :: s) none false = true ↔ _
    rw [scanAddress_iff (fun _ h => by cases h), encoded_cons (by decide),
      queryFrom_other (fun _ h => by cases h) (by decide), queryFrom_none]
    simp [hplain]

end Authority

section Parts

variable {flags : Int32} {u : Uri} {a s : Bytes}

/-- The parts are cut where the checks cut them. -/
structure Shaped (flags : Int32) (u : Uri) : Prop where
  authority : Encoded (PlainDomain flags) (Escape flags true) u.authority
  user : ∀ name password, u.user = some (name, password) →
    0x3A ∉ name ∧ 0x40 ∉ name ∧ ∀ s, password = some s → 0x40 ∉ s
  host : 0x3A ∉ u.host ∧ 0x40 ∉ u.host
  port : ∀ digits, u.port = some digits → 0x40 ∉ digits

/-- The tests of the parts. -/
structure Accepted (flags : Int32) (u : Uri) : Prop where
  user : ∀ name password, u.user = some (name, password) → 2 ≤ name.length ∧ password ≠ some []
  host : u.host ≠ [] ∧ u.host.length < 256
  port : ∀ digits, u.port = some digits → digits ≠ [] ∧ ∀ c ∈ digits, 0x30 ≤ c ∧ c ≤ 0x39
  rest : ∀ s, u.rest = some s →
    Encoded (PlainAddress flags) (Escape flags (noSpaces flags)) s ∧ Query s

theorem exists_behind (c : UInt8) (a : Bytes) : ∃ b s, a = b ++ behind c s ∧ c ∉ b := by
  by_cases hc : c ∈ a
  · obtain ⟨b, s, rfl, hb⟩ := List.eq_append_cons_of_mem hc
    exact ⟨b, some s, rfl, hb⟩
  · exact ⟨a, none, (List.append_nil a).symm, hc⟩

theorem behind_inj {c : UInt8} {b : Bytes} {s t : Option Bytes} (ha : c ∉ a) (hb : c ∉ b)
    (h : a ++ behind c s = b ++ behind c t) : a = b ∧ s = t := by
  cases s with
  | none =>
    cases t with
    | none => exact ⟨by simpa [behind] using h, rfl⟩
    | some t =>
      rw [behind, List.append_nil] at h
      rw [h] at ha
      simp [behind] at ha
  | some s =>
    cases t with
    | none =>
      rw [behind, behind, List.append_nil] at h
      rw [← h] at hb
      simp at hb
    | some t =>
      obtain ⟨rfl, -, rfl⟩ := first_cut_inj ha hb h
      exact ⟨rfl, rfl⟩

theorem atEnd_behind (rest : Option Bytes) : AtEnd (behind 0x2F rest) := by
  cases rest with
  | none => exact .inl rfl
  | some s => exact .inr rfl

theorem atEnd_exists (h : AtEnd s) : ∃ rest, s = behind 0x2F rest := by
  rcases h with rfl | h
  · exact ⟨none, rfl⟩
  · obtain ⟨rest, rfl⟩ := List.head?_eq_some_iff.mp h
    exact ⟨some rest, rfl⟩

theorem escape_at {d e : UInt8} (h : Escape flags true d e) : 0x40 ≠ d ∧ 0x40 ≠ e :=
  escape_ne (.inr (by decide)) h

theorem Shaped.at_notMem (h : Shaped flags u) : 0x40 ∉ u.host ++ behind 0x3A u.port := by
  rw [List.mem_append, not_or]
  refine ⟨h.host.2, ?_⟩
  cases hport : u.port with
  | none => simp [behind]
  | some digits => simpa [behind] using h.port digits hport

theorem Shaped.name_notMem {name : Bytes} {password : Option Bytes} (h : Shaped flags u)
    (huser : u.user = some (name, password)) : 0x40 ∉ name ++ behind 0x3A password := by
  obtain ⟨-, hname, hpassword⟩ := h.user name password huser
  rw [List.mem_append, not_or]
  refine ⟨hname, ?_⟩
  cases password with
  | none => simp [behind]
  | some s => simpa [behind] using hpassword s rfl

/-- What the loop over the domain finds. -/
theorem Shaped.scanDomain (h : Shaped flags u) (s : Bytes) (hs : AtEnd s) :
    scanDomain flags (u.authority ++ s) none (u.authority ++ s) =
      some (u.user.map fun _ => u.authority ++ s, u.host ++ (behind 0x3A u.port ++ s), s) := by
  have hauthority := h.authority
  have hat := h.at_notMem
  cases huser : u.user with
  | none =>
    unfold Uri.authority userText at hauthority ⊢
    rw [huser, List.nil_append] at hauthority ⊢
    rw [scanDomain_encoded hauthority hat, scanDomain_atEnd hs, List.append_assoc]
    rfl
  | some user =>
    obtain ⟨name, password⟩ := user
    have hname := h.name_notMem huser
    unfold Uri.authority userText at hauthority ⊢
    rw [huser] at hauthority ⊢
    simp only [List.append_assoc, List.singleton_append] at hauthority hname ⊢
    rw [← List.append_assoc] at hauthority
    obtain ⟨hleft, hright⟩ := hauthority.split fun d e => escape_at
    rw [← List.append_assoc name, scanDomain_encoded hleft (by simpa using hname), List.cons_append,
      scanDomain_at, scanDomain_encoded (hright.tail (by decide)).2 hat, scanDomain_atEnd hs]
    simp

/-- What stands in front of the first slash has the shape that the checks need. -/
theorem exists_shaped {found : Option Bytes × Bytes × Bytes} (protocol : Bytes)
    (h : scanDomain flags s none s = some found) : ∃ u : Uri, u.protocol = protocol ∧
      Shaped flags u ∧ s = u.authority ++ behind 0x2F u.rest := by
  obtain ⟨a, ha⟩ := scanDomain_inv h
  obtain ⟨rest, hrest⟩ := atEnd_exists ha.atEnd
  have hs := ha.split
  rw [hrest] at hs
  rcases ha.user with ⟨hat, -⟩ | ⟨-, user, b, rfl, huser, hb, -⟩
  · obtain ⟨host, port, rfl, hhost⟩ := exists_behind 0x3A a
    rw [List.mem_append, not_or] at hat
    refine ⟨⟨protocol, none, host, port, rest⟩, rfl, ⟨ha.encoded, ?_, ⟨hhost, hat.1⟩, ?_⟩, hs⟩
    · intro name password h
      cases h
    · rintro digits rfl
      exact List.not_mem_of_not_mem_cons hat.2
  · obtain ⟨host, port, rfl, hhost⟩ := exists_behind 0x3A b
    obtain ⟨name, password, rfl, hname⟩ := exists_behind 0x3A user
    rw [List.mem_append, not_or] at hb huser
    have htext : name ++ behind 0x3A password ++ 0x40 :: (host ++ behind 0x3A port) =
        userText (some (name, password)) ++ (host ++ behind 0x3A port) := by
      simp [userText]
    have hencoded := ha.encoded
    rw [htext] at hencoded hs
    refine ⟨⟨protocol, some (name, password), host, port, rest⟩, rfl,
      ⟨hencoded, ?_, ⟨hhost, hb.1⟩, ?_⟩, hs⟩
    · rintro _ _ ⟨⟩
      refine ⟨hname, huser.1, ?_⟩
      rintro s rfl
      exact List.not_mem_of_not_mem_cons huser.2
    · rintro digits rfl
      exact List.not_mem_of_not_mem_cons hb.2

theorem Shaped.user_iff (h : Shaped flags u) (s : Bytes) :
    (u.user.map fun _ => u.authority ++ s).any
        (fun username => !userValid username (u.host ++ (behind 0x3A u.port ++ s))) = false ↔
      ∀ name password, u.user = some (name, password) → 2 ≤ name.length ∧ password ≠ some [] := by
  cases huser : u.user with
  | none => simp
  | some user =>
    obtain ⟨name, password⟩ := user
    obtain ⟨hcolon, hat, -⟩ := h.user name password huser
    have htext : u.authority ++ s =
        name ++ behind 0x3A password ++ 0x40 :: (u.host ++ (behind 0x3A u.port ++ s)) := by
      simp [Uri.authority, userText, huser]
    rw [Option.map_some, Option.any_some, htext, Bool.not_eq_false', userValid_iff hcolon hat]
    simp

/-- The tests of what follows the protocol. -/
theorem Shaped.checkDomain_iff (h : Shaped flags u) (p : Bytes) {start : ℕ} {host : Bytes} :
    checkDomain flags p (u.authority ++ behind 0x2F u.rest) = .passed start host ↔
      Accepted flags u ∧ host = u.host ∧
        start = p.length - (u.host ++ (behind 0x3A u.port ++ behind 0x2F u.rest)).length := by
  have htail := atEnd_behind u.rest
  have huser := h.user_iff (behind 0x2F u.rest)
  have hport := @portOf_eq _ _ u.port h.host.1 htail
  have hdigits := @portValid_iff _ u.port htail
  have haddress := @addressValid_iff flags u.rest
  have hlength : (u.host ++ (behind 0x3A u.port ++ behind 0x2F u.rest)).length -
      (behind 0x3A u.port ++ behind 0x2F u.rest).length = u.host.length := by
    rw [List.length_append, Nat.add_sub_cancel]
  rw [checkDomain, h.scanDomain _ htail]
  dsimp only
  rw [hport, hlength, List.take_left]
  split_ifs with hname hnumber hrest hlong hempty
  · refine iff_of_false (by simp) fun ⟨haccepted, _⟩ => ?_
    rw [huser.mpr haccepted.user] at hname
    cases hname
  · refine iff_of_false (by simp) fun ⟨haccepted, _⟩ => ?_
    rw [hdigits.mpr haccepted.port] at hnumber
    cases hnumber
  · refine iff_of_false (by simp) fun ⟨haccepted, _⟩ => ?_
    rw [haddress.mpr haccepted.rest] at hrest
    cases hrest
  · exact iff_of_false (by simp) fun ⟨haccepted, _⟩ => absurd haccepted.host.2 (by omega)
  · exact iff_of_false (by simp) fun ⟨haccepted, _⟩ =>
      haccepted.host.1 (List.length_eq_zero_iff.mp hempty)
  · rw [Bool.not_eq_true, Bool.not_eq_false'] at hnumber hrest
    have haccepted : Accepted flags u :=
      ⟨huser.mp (by simpa using hname), ⟨fun h => hempty (by simp [h]), by omega⟩,
        hdigits.mp hnumber, haddress.mp hrest⟩
    simp only [Checked.passed.injEq, haccepted, true_and]
    exact ⟨fun ⟨hstart, hhost⟩ => ⟨hhost.symm, hstart.symm⟩,
      fun ⟨hhost, hstart⟩ => ⟨hstart.symm, hhost.symm⟩⟩

theorem checkDomain_ne_outside (flags : Int32) (p s : Bytes) :
    checkDomain flags p s ≠ .outside := by
  rw [checkDomain]
  split
  · simp
  · dsimp only
    split_ifs <;> simp

end Parts

section Whole

variable {protocols : Bytes} {flags : Int32} {u v : Uri} {p uri : Bytes}

/-- What the checks that pass have found. -/
structure Passing (protocols : Bytes) (flags : Int32) (u : Uri) : Prop where
  protocol : ∀ c ∈ u.protocol, isProtocol c = true
  listed : Listed protocols u.protocol
  shaped : Shaped flags u
  accepted : Accepted flags u

theorem protocol_colon {protocol : Bytes} (h : ∀ c ∈ protocol, isProtocol c = true) :
    0x3A ∉ protocol := fun hmem => (isProtocol_ne (h 0x3A hmem)).2.1 rfl

def checkBehind (flags : Int32) (p : Bytes) : Bytes → Checked
  | [] => .outside
  | _ :: 0x2F :: 0x2F :: s => checkDomain flags p s
  | _ => .returned .badUri

theorem checkSyntax_listed {protocol : Bytes} (hprotocol : ∀ c ∈ protocol, isProtocol c = true)
    (huri : uri = [] ∨ uri.head? = some 0x3A) (hne : protocol ++ uri ≠ [])
    (hlisted : Listed protocols protocol) : checkSyntax protocols flags (protocol ++ uri) =
      checkBehind flags (protocol ++ uri) uri := by
  have hskip : skipProtocol (protocol ++ uri) = some uri :=
    skipProtocol_iff.mpr ⟨protocol, rfl, hprotocol, huri⟩
  have hlength : (protocol ++ uri).length - uri.length = protocol.length := by
    rw [List.length_append, Nat.add_sub_cancel]
  have hvalid : protocolValid (protocol ++ uri) protocol.length (protocols.length + 1) protocols =
      true := (protocolValid_iff hprotocol huri hne _ (Nat.lt_succ_self _)).mpr hlisted
  rw [checkSyntax, if_neg hne, hskip]
  dsimp only
  rw [hlength, if_pos hvalid]
  split
  · rfl
  · rfl
  · next hnil hslashes => rw [checkBehind.eq_3 _ _ _ hnil hslashes]

theorem checkSyntax_cases (protocols : Bytes) (flags : Int32) (p : Bytes) :
    (∃ result, checkSyntax protocols flags p = .returned result) ∨
    ∃ protocol uri, p = protocol ++ uri ∧ p ≠ [] ∧ (∀ c ∈ protocol, isProtocol c = true) ∧
      (uri = [] ∨ uri.head? = some 0x3A) ∧ Listed protocols protocol ∧
      checkSyntax protocols flags p = checkBehind flags p uri := by
  by_cases hnil : p = []
  · exact .inl ⟨.null, by rw [checkSyntax, if_pos hnil]⟩
  · cases hskip : skipProtocol p with
    | none => exact .inl ⟨.badUri, by rw [checkSyntax, if_neg hnil, hskip]⟩
    | some uri =>
      obtain ⟨protocol, rfl, hprotocol, huri⟩ := skipProtocol_iff.mp hskip
      by_cases hlisted : Listed protocols protocol
      · exact .inr ⟨protocol, uri, rfl, hnil, hprotocol, huri, hlisted,
          checkSyntax_listed hprotocol huri hnil hlisted⟩
      · have hlength : (protocol ++ uri).length - uri.length = protocol.length := by
          rw [List.length_append, Nat.add_sub_cancel]
        have hvalid := protocolValid_iff hprotocol huri hnil _ (Nat.lt_succ_self protocols.length)
        refine .inl ⟨.badUri, ?_⟩
        rw [checkSyntax, if_neg hnil, hskip]
        dsimp only
        rw [hlength, if_neg fun htrue => hlisted (hvalid.mp htrue)]

theorem checkSyntax_outside_iff : checkSyntax protocols flags p = .outside ↔
    p ≠ [] ∧ (∀ c ∈ p, isProtocol c = true) ∧ Listed protocols p := by
  constructor
  · intro h
    rcases checkSyntax_cases protocols flags p with
      ⟨result, hresult⟩ | ⟨protocol, uri, rfl, hne, hprotocol, -, hlisted, hbehind⟩
    · rw [hresult] at h
      cases h
    · rw [hbehind] at h
      unfold checkBehind at h
      split at h
      · rw [List.append_nil] at hne ⊢
        exact ⟨hne, hprotocol, hlisted⟩
      · exact absurd h (checkDomain_ne_outside flags _ _)
      · cases h
  · rintro ⟨hne, hprotocol, hlisted⟩
    have hbehind := @checkSyntax_listed protocols flags [] p hprotocol (.inl rfl)
      (by rwa [List.append_nil]) hlisted
    rwa [List.append_nil] at hbehind

theorem checkSyntax_passed_iff {start : ℕ} {host : Bytes} :
    checkSyntax protocols flags p = .passed start host ↔
      ∃ u : Uri, u.text = p ∧ Passing protocols flags u ∧ host = u.host ∧
        start = (u.protocol ++ 0x3A :: 0x2F :: 0x2F :: userText u.user).length := by
  have hplace : ∀ u : Uri, u.text = p → p.length -
      (u.host ++ (behind 0x3A u.port ++ behind 0x2F u.rest)).length =
        (u.protocol ++ 0x3A :: 0x2F :: 0x2F :: userText u.user).length := by
    rintro u rfl
    simp only [Uri.text, Uri.authority, List.length_append, List.length_cons]
    omega
  constructor
  · intro h
    rcases checkSyntax_cases protocols flags p with
      ⟨result, hresult⟩ | ⟨protocol, uri, hp, -, hprotocol, huri, hlisted, hbehind⟩
    · rw [hresult] at h
      cases h
    · rw [hbehind] at h
      unfold checkBehind at h
      split at h
      · cases h
      · rename_i c s
        have hcolon : c = 0x3A := by simpa using huri
        cases hscan : scanDomain flags s none s with
        | none =>
          rw [checkDomain, hscan] at h
          cases h
        | some found =>
          obtain ⟨u, rfl, hshaped, rfl⟩ := exists_shaped protocol hscan
          obtain ⟨haccepted, hhost, hstart⟩ := (hshaped.checkDomain_iff p).mp h
          have htext : u.text = p := by rw [Uri.text, hp, hcolon]
          exact ⟨u, htext, ⟨hprotocol, hlisted, hshaped, haccepted⟩, hhost,
            hstart.trans (hplace u htext)⟩
      · cases h
  · rintro ⟨u, htext, hpassing, hhost, hstart⟩
    have hbehind := @checkSyntax_listed protocols flags
      (0x3A :: 0x2F :: 0x2F :: (u.authority ++ behind 0x2F u.rest)) u.protocol hpassing.protocol
      (.inr rfl) (by simp) hpassing.listed
    rw [← Uri.text, htext] at hbehind
    rw [hbehind]
    exact (hpassing.shaped.checkDomain_iff p).mpr
      ⟨hpassing.accepted, hhost, hstart.trans (hplace u htext).symm⟩

theorem userText_at {name : Bytes} {password : Option Bytes} (a : Bytes) :
    userText (some (name, password)) ++ a = name ++ behind 0x3A password ++ 0x40 :: a := by
  rw [userText, List.append_assoc, List.singleton_append]

theorem user_none (hu : Shaped flags u) (h : u.authority = v.authority) (hnone : u.user = none) :
    v.user = none := by
  cases huser : v.user with
  | none => rfl
  | some user =>
    have hat := hu.at_notMem
    rw [Uri.authority, Uri.authority, hnone, huser, userText_at, userText, List.nil_append] at h
    rw [h] at hat
    simp at hat

theorem authority_inj (hu : Shaped flags u) (hv : Shaped flags v) (h : u.authority = v.authority) :
    u.user = v.user ∧ u.host = v.host ∧ u.port = v.port := by
  cases huser : u.user with
  | none =>
    have hvuser := user_none hu h huser
    rw [Uri.authority, Uri.authority, huser, hvuser] at h
    exact ⟨hvuser.symm, behind_inj hu.host.1 hv.host.1 (List.append_cancel_left h)⟩
  | some user =>
    cases hvuser : v.user with
    | none =>
      rw [user_none hv h.symm hvuser] at huser
      cases huser
    | some vuser =>
      obtain ⟨name, password⟩ := user
      obtain ⟨vname, vpassword⟩ := vuser
      rw [Uri.authority, Uri.authority, huser, hvuser, userText_at, userText_at] at h
      obtain ⟨hnames, -, hhosts⟩ :=
        first_cut_inj (hu.name_notMem huser) (hv.name_notMem hvuser) h
      obtain ⟨rfl, rfl⟩ := behind_inj (hu.user name password huser).1
        (hv.user vname vpassword hvuser).1 hnames
      exact ⟨rfl, behind_inj hu.host.1 hv.host.1 hhosts⟩

/-- The parts of a URI are determined. -/
theorem parts_inj (hu : ∀ c ∈ u.protocol, isProtocol c = true)
    (hv : ∀ c ∈ v.protocol, isProtocol c = true) (hushaped : Shaped flags u)
    (hvshaped : Shaped flags v) (h : u.text = v.text) : u = v := by
  obtain ⟨hprotocol, -, hbehind⟩ :=
    first_cut_inj (protocol_colon hu) (protocol_colon hv) h
  have hslash : ∀ w : Uri, Shaped flags w → 0x2F ∉ w.authority := fun w hw =>
    hw.authority.notMem (fun hplain => hplain.2.2.1 rfl) (by decide)
      fun d e => escape_ne (.inl (by decide))
  have hslashes : u.authority ++ behind 0x2F u.rest = v.authority ++ behind 0x2F v.rest := by
    simpa using hbehind
  obtain ⟨hauthority, hrest⟩ := behind_inj (hslash u hushaped) (hslash v hvshaped) hslashes
  obtain ⟨huser, hhost, hport⟩ := authority_inj hushaped hvshaped hauthority
  cases u
  cases v
  simp_all

theorem Sound.shaped (h : Sound protocols flags u) : Shaped flags u := by
  refine ⟨h.authority, ?_, h.host.2.2, ?_⟩
  · intro name password huser
    obtain ⟨-, hcolon, hat, hpassword⟩ := h.user name password huser
    exact ⟨hcolon, hat, fun s hs => (hpassword s hs).2⟩
  · intro digits hport hat
    obtain ⟨-, hle⟩ := (h.port digits hport).2 0x40 hat
    exact absurd hle (by decide)

theorem sound_inj (hu : Sound protocols flags u) (hv : Sound protocols flags v)
    (h : u.text = v.text) : u = v :=
  parts_inj hu.protocol hv.protocol hu.shaped hv.shaped h

theorem passing_iff : Passing protocols flags u ↔
    Sound protocols flags u ∧ ¬∃ c password, u.user = some ([c], password) := by
  constructor
  · intro h
    refine ⟨⟨h.protocol, h.listed, h.shaped.authority, ?_, ⟨h.accepted.host.1, h.accepted.host.2,
      h.shaped.host⟩, h.accepted.port, h.accepted.rest⟩, ?_⟩
    · intro name password huser
      obtain ⟨hcolon, hat, hpassword⟩ := h.shaped.user name password huser
      obtain ⟨hname, hempty⟩ := h.accepted.user name password huser
      refine ⟨?_, hcolon, hat, fun s hs => ⟨?_, hpassword s hs⟩⟩
      · rintro rfl
        exact absurd hname (by decide)
      · rintro rfl
        exact hempty hs
    · rintro ⟨c, password, huser⟩
      have hname := (h.accepted.user [c] password huser).1
      simp at hname
  · rintro ⟨h, hone⟩
    refine ⟨h.protocol, h.listed, h.shaped, ⟨?_, ⟨h.host.1, h.host.2.1⟩, h.port, h.rest⟩⟩
    intro name password huser
    obtain ⟨hname, -, -, hpassword⟩ := h.user name password huser
    constructor
    · match name, hname with
      | [c], _ => exact absurd ⟨c, password, huser⟩ hone
      | _ :: _ :: _, _ => simp
    · rintro rfl
      exact (hpassword [] rfl).1 rfl

theorem passes_iff (protocols : Bytes) (flags : Int32) (uri : Bytes) :
    (∃ start host, checkSyntax protocols flags uri = .passed start host) ↔
      ∃ u : Uri, u.text = uri ∧ Sound protocols flags u ∧
        ¬∃ c password, u.user = some ([c], password) := by
  constructor
  · rintro ⟨start, host, h⟩
    obtain ⟨u, htext, hpassing, -⟩ := checkSyntax_passed_iff.mp h
    exact ⟨u, htext, passing_iff.mp hpassing⟩
  · rintro ⟨u, htext, hsound⟩
    exact ⟨_, _, checkSyntax_passed_iff.mpr ⟨u, htext, passing_iff.mpr hsound, rfl, rfl⟩⟩

/-- `tld_check_uri()` accepts the documented syntax and stays within the string exactly for
the regular URIs. -/
theorem asDocumented_iff (protocols : Bytes) (flags : Int32) (uri : Bytes) :
    AsDocumented protocols flags uri ↔ Regular protocols flags uri := by
  constructor
  · intro h
    refine ⟨fun hne hprotocol hlisted => ?_,
      fun u htext hsound => ⟨fun hempty => ?_, fun hone => ?_⟩⟩
    · exact h.inside (checkSyntax_outside_iff.mpr ⟨hne, hprotocol, hlisted⟩)
    · by_contra hone
      obtain ⟨v, hvtext, hvsound, hvne⟩ :=
        h.accepts.mp ((passes_iff protocols flags uri).mpr ⟨u, htext, hsound, hone⟩)
      rw [sound_inj hsound hvsound (htext.trans hvtext.symm)] at hempty
      exact hvne hempty
    · by_contra hne
      obtain ⟨v, hvtext, hvsound, hvone⟩ :=
        (passes_iff protocols flags uri).mp (h.accepts.mpr ⟨u, htext, hsound, hne⟩)
      rw [sound_inj hsound hvsound (htext.trans hvtext.symm)] at hone
      exact hvone hone
  · intro h
    refine ⟨fun houtside => ?_, ?_⟩
    · obtain ⟨hne, hprotocol, hlisted⟩ := checkSyntax_outside_iff.mp houtside
      exact h.colon hne hprotocol hlisted
    · rw [passes_iff]
      constructor
      · rintro ⟨u, htext, hsound, hone⟩
        exact ⟨u, htext, hsound, fun hempty => hone ((h.parts u htext hsound).mp hempty)⟩
      · rintro ⟨u, htext, hsound, hne⟩
        exact ⟨u, htext, hsound, fun hone => hne ((h.parts u htext hsound).mpr hone)⟩

/-- `http`, when `http` is the list of protocols. -/
theorem protocol_alone : ¬AsDocumented [0x68, 0x74, 0x74, 0x70] 0 [0x68, 0x74, 0x74, 0x70] := by
  intro h
  exact h.inside (by decide)

end Whole

end SnapCpp.UriSyntax
