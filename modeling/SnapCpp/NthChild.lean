import SnapCpp.CssCharacter

/-!
The expressions `An+B` of the selectors that count elements. The parser reads tokens with one
character of look-ahead and keeps the numbers in 64 bits before it stores them in 32 bits, and the
printer abbreviates some of the forms.
-/
namespace SnapCpp

/-- `nth_child`. -/
structure NthChild where
  fError : String := ""
  fA : BitVec 32 := 1
  fB : BitVec 32 := 0
deriving DecidableEq, Repr

namespace NthChild

open Css (Bytes eof isDigit)

/-- `token_t`. -/
inductive Token where
  | eofToken
  | odd
  | even
  | integer
  | plus
  | minus
  | n
  | unknown
deriving DecidableEq, Repr

/-- `in_t`: the characters that are left, with the one that was put back in front of them. -/
abbrev In := List ℤ

/-- A `char` has a sign. -/
def toChar (b : UInt8) : ℤ := b.toInt8.toInt

def chars (anPlusB : Bytes) : In := anPlusB.map toChar

def getc : In → ℤ × In
  | [] => (eof, [])
  | c :: l => (c, l)

def ungetc (c : ℤ) (l : In) : In := if c = 0 then l else c :: l

def addDigit (value : BitVec 64) (c : ℤ) : BitVec 64 := value * 10 + BitVec.ofInt 64 c - 48

def digits : BitVec 64 → In → BitVec 64 × In
  | value, [] => (value, []) -- there is the end again where it is put back
  | value, c :: l =>
      if c < '0' ∨ '9' < c then (value, ungetc c l) else digits (addDigit value c) l

/-- The letter `x` in one of its two cases. -/
def IsLetter (x c : ℤ) : Prop := c = x ∨ c = x - 32

instance (x c : ℤ) : Decidable (IsLetter x c) := inferInstanceAs (Decidable (_ ∨ _))

def letters (t : Token) : List ℤ → In → Token × BitVec 64 × In
  | [], l => (t, 0, l)
  | x :: word, l =>
      let (c, l) := getc l
      if IsLetter x c then letters t word l else (.unknown, 0, l)

/-- `token()`, with the value of an integer. -/
def token : In → Token × BitVec 64 × In
  | [] => (.eofToken, 0, [])
  | c :: l =>
      if c = ' ' then token l
      else if c = eof then (.eofToken, 0, l)
      else if isDigit c then
        let (value, l) := digits (addDigit 0 c) l
        (.integer, value, l)
      else if IsLetter 'n' c then (.n, 0, l)
      else if IsLetter 'e' c then letters .even ['v', 'e', 'n'] l
      else if IsLetter 'o' c then letters .odd ['d', 'd'] l
      else if c = '+' then (.plus, 0, l)
      else if c = '-' then (.minus, 0, l)
      else (.unknown, 0, l)

def parseEnd (n : NthChild) (error : String) (l : In) : Bool × NthChild :=
  if (token l).1 = .eofToken then (true, n) else (false, { n with fError := error })

/-- The product is an `integer_t`, of which 32 bits are stored. -/
def signed (value sign : BitVec 64) : BitVec 32 := (value * sign).setWidth 32

def parseSecond (n : NthChild) (first : BitVec 32) (l : In) : Bool × NthChild :=
  let (t, _, l) := token l
  if t = .plus ∨ t = .minus then
    let secondSign := if t = .minus then -1 else 1
    let (t, secondInt, l) := token l
    if t ≠ .integer then
      (false, { n with fError := "The value B must be a valid integer in 'An+B'." })
    else
      parseEnd { n with fA := first, fB := signed secondInt secondSign }
        "An 'An+B' expression cannot be followed by anything else." l
  else
    (false, { n with fError :=
      "A sign (+ or -) is expected between the 'An' and the 'B' parts in 'An+B'." })

def parseFirst (n : NthChild) (firstSign : BitVec 64) (p : Token × BitVec 64 × In) :
    Bool × NthChild :=
  let (t, firstInt, l) := p
  if t ≠ .integer then
    (false, { n with fError := "In an An+B expression, we expect an optional signed followed " ++
      "by a number or 'even' or 'odd'." })
  else
    let (t, _, l) := token l
    if t = .eofToken then (true, { n with fA := 0, fB := signed firstInt firstSign })
    else if t ≠ .n then
      (false, { n with fError := "The first number has to be followed by the 'n' character." })
    else parseSecond n (signed firstInt firstSign) l

def parse (n : NthChild) (anPlusB : Bytes) : Bool × NthChild :=
  let n := { n with fError := "" }
  let p := token (chars anPlusB)
  if p.1 = .even then
    parseEnd { n with fA := 2, fB := 0 }
      "'even' cannot be followed by anything else in an An+B expression." p.2.2
  else if p.1 = .odd then
    parseEnd { n with fA := 2, fB := 1 }
      "'odd' cannot be followed by anything else in an An+B expression." p.2.2
  else if p.1 = .plus then parseFirst n 1 (token p.2.2)
  else if p.1 = .minus then parseFirst n (-1) (token p.2.2)
  else parseFirst n 1 p

/-- `std::to_string()`. -/
def decimal (n : ℕ) : Bytes := (Nat.toDigits 10 n).map fun c => c.toNat.toUInt8

def signedDecimal (n : ℤ) : Bytes := if n < 0 then 45 :: decimal n.natAbs else decimal n.natAbs

def toString (n : NthChild) : Bytes :=
  if n.fA = 2 ∧ n.fB = 0 then [50, 110]
  else if n.fA = 2 ∧ n.fB = 1 then [111, 100, 100]
  else if n.fA = 0 then signedDecimal n.fB.toInt
  else if n.fB = 0 then signedDecimal n.fA.toInt ++ [110]
  else
    signedDecimal n.fA.toInt ++ 110 :: ((if 0 ≤ n.fB.toInt then [43] else []) ++
      signedDecimal n.fB.toInt)

def ofNth (anPlusB : BitVec 64) : NthChild :=
  { fA := (anPlusB.sshiftRight 0).setWidth 32, fB := (anPlusB.sshiftRight 32).setWidth 32 }

def getNth (n : NthChild) : BitVec 64 :=
  ((n.fA.signExtend 64 &&& 0xFFFFFFFF) <<< 0) ||| ((n.fB.signExtend 64 &&& 0xFFFFFFFF) <<< 32)

def Spells (word p : In) : Prop := List.Forall₂ IsLetter word p

def IsNumber (p : In) : Prop := p ≠ [] ∧ ∀ c ∈ p, isDigit c = true

def numberValue (p : In) : ℤ := p.foldl (fun n c => n * 10 + (c - '0')) 0

inductive Sign : In → ℤ → Prop
  | plus : Sign ['+'] 1
  | minus : Sign ['-'] (-1)

inductive OptionalSign : List In → ℤ → Prop
  | none : OptionalSign [] 1
  | some {p : In} {s : ℤ} : Sign p s → OptionalSign [p] s

/-- The forms of an expression: a word, the number `B`, the number `A` and the letter, or all. -/
inductive Form where
  | word
  | lone
  | first
  | both
deriving DecidableEq

/-- The expressions of the grammar as lists of their tokens, with the numbers they stand for. -/
inductive Written : Form → List In → ℤ → ℤ → Prop
  | even {p : In} : Spells ['e', 'v', 'e', 'n'] p → Written .word [p] 2 0
  | odd {p : In} : Spells ['o', 'd', 'd'] p → Written .word [p] 2 1
  | lone {sign : List In} {s : ℤ} {p : In} : OptionalSign sign s → IsNumber p →
      Written .lone (sign ++ [p]) 0 (s * numberValue p)
  | first {sign : List In} {s : ℤ} {p : In} {c : ℤ} : OptionalSign sign s → IsNumber p →
      IsLetter 'n' c → Written .first (sign ++ [p, [c]]) (s * numberValue p) 0
  | both {sign : List In} {s : ℤ} {p : In} {c : ℤ} {q : In} {t : ℤ} {r : In} :
      OptionalSign sign s → IsNumber p → IsLetter 'n' c → Sign q t → IsNumber r →
      Written .both (sign ++ [p, [c], q, r]) (s * numberValue p) (t * numberValue r)

def Derives (l : In) (a b : ℤ) : Prop := ∃ form ps, Written form ps a b ∧ l = ps.flatten

def unspaced (l : In) : In := l.filter (· ≠ ' ')

section Reading

def Spaces (w : In) : Prop := ∀ c ∈ w, c = ' '

def startsNumber (l : In) : Bool := l.head?.any isDigit

def behind (p : In) : In → In
  | [] => []
  | c :: l => if startsNumber p then ungetc c l else c :: l

/-- Tokens are read from a text, each with spaces in front of it, up to what is left. -/
inductive Leads : List In → In → In → Prop
  | nil {l : In} : Leads [] l l
  | cons {w p l r : In} {ps : List In} : Spaces w → (startsNumber p → startsNumber l = false) →
      Leads ps (behind p l) r → Leads (p :: ps) (w ++ (p ++ l)) r

def AtEnd (l : In) : Prop := ∃ w r, l = w ++ r ∧ Spaces w ∧ (r = [] ∨ r.head? = some eof)

def Accepts (l : In) (a b : ℤ) : Prop :=
  ∃ form ps r, form ≠ .first ∧ Written form ps a b ∧ Leads ps l r ∧ AtEnd r

def Overwrites (l : In) (a b : ℤ) : Prop :=
  ∃ form ps r, (form = .word ∨ form = .both) ∧ Written form ps a b ∧ Leads ps l r ∧ ¬ AtEnd r

inductive Piece : In → Token → BitVec 64 → Prop
  | even {p : In} : Spells ['e', 'v', 'e', 'n'] p → Piece p .even 0
  | odd {p : In} : Spells ['o', 'd', 'd'] p → Piece p .odd 0
  | integer {p : In} : IsNumber p → Piece p .integer (BitVec.ofInt 64 (numberValue p))
  | plus : Piece ['+'] .plus 0
  | minus : Piece ['-'] .minus 0
  | n {c : ℤ} : IsLetter 'n' c → Piece [c] .n 0

variable {l w p r : In} {t : Token} {v : BitVec 64}

theorem digits_append {value : BitVec 64} (hp : ∀ c ∈ p, isDigit c = true)
    (hl : startsNumber l = false) :
    digits value (p ++ l) = (p.foldl addDigit value, match l with
      | [] => []
      | c :: l => ungetc c l) := by
  induction p generalizing value with
  | nil =>
    cases l with
    | nil => rfl
    | cons c l =>
      have hc : isDigit c = false := hl
      rw [List.nil_append, digits, if_pos]
      · rfl
      · rw [isDigit, Bool.and_eq_false_iff, decide_eq_false_iff_not, decide_eq_false_iff_not] at hc
        omega
  | cons c p ih =>
    obtain ⟨hc, hp⟩ := List.forall_mem_cons.mp hp
    rw [isDigit, Bool.and_eq_true, decide_eq_true_eq, decide_eq_true_eq] at hc
    rw [List.cons_append, digits, if_neg (by omega), ih hp]
    rfl

theorem foldl_addDigit (p : In) (m : ℤ) :
    p.foldl addDigit (BitVec.ofInt 64 m) =
      BitVec.ofInt 64 (p.foldl (fun n c => n * 10 + (c - '0')) m) := by
  induction p generalizing m with
  | nil => rfl
  | cons c p ih =>
    have hdigit : m * 10 + (c - '0') = m * 10 + c + -('0' : ℤ) := by ring
    rw [List.foldl_cons, List.foldl_cons, ← ih, hdigit, BitVec.ofInt_add, BitVec.ofInt_add,
      BitVec.ofInt_mul, BitVec.ofInt_neg, ← BitVec.sub_eq_add_neg]
    rfl

theorem letters_append {word : In} (h : Spells word p) : letters t word (p ++ l) = (t, 0, l) := by
  induction h with
  | nil => rfl
  | cons hc _ ih =>
    rw [List.cons_append, letters, getc]
    dsimp only
    rw [if_pos hc, ih]

theorem token_spaces (hw : Spaces w) (l : In) : token (w ++ l) = token l := by
  induction w with
  | nil => rfl
  | cons c w ih =>
    obtain ⟨hc, hw⟩ := List.forall_mem_cons.mp hw
    rw [List.cons_append, token, if_pos hc, ih hw]

theorem token_piece (h : Piece p t v) (hend : startsNumber p → startsNumber l = false) :
    token (p ++ l) = (t, v, behind p l) := by
  have hbehind : ∀ q : In, startsNumber q = false → behind q l = l := by
    intro q hq
    cases l with
    | nil => rfl
    | cons c l => rw [behind, hq, if_neg Bool.false_ne_true]
  cases h with
  | plus => rw [hbehind _ rfl]; rfl
  | minus => rw [hbehind _ rfl]; rfl
  | n hc =>
    rcases hc with rfl | rfl
    · rw [hbehind _ rfl]; rfl
    · rw [hbehind _ rfl]; rfl
  | even hp | odd hp =>
    cases hp with
    | cons hc hp =>
      rw [List.cons_append, token]
      rcases hc with rfl | rfl
      · rw [hbehind _ rfl]; exact letters_append hp
      · rw [hbehind _ rfl]; exact letters_append hp
  | integer hp =>
    obtain ⟨hne, hp⟩ := hp
    obtain ⟨c, p, rfl⟩ := List.exists_cons_of_ne_nil hne
    obtain ⟨hc, hp⟩ := List.forall_mem_cons.mp hp
    have hrange := hc
    rw [isDigit, Bool.and_eq_true, decide_eq_true_eq, decide_eq_true_eq] at hrange
    simp only [Char.reduceToNat, Nat.cast_ofNat] at hrange
    have hspace : ¬ c = ' ' := by
      simp only [Char.reduceToNat, Nat.cast_ofNat]
      omega
    have heof : ¬ c = eof := by
      rw [eof]
      omega
    have hvalue : BitVec.ofInt 64 (numberValue (c :: p)) = p.foldl addDigit (addDigit 0 c) :=
      (foldl_addDigit (c :: p) 0).symm
    rw [List.cons_append, token, if_neg hspace, if_neg heof, if_pos hc,
      digits_append hp (hend hc), ← hvalue]
    cases l with
    | nil => rfl
    | cons d l =>
      rw [behind, if_pos (show startsNumber (c :: p) = true from hc)]

theorem of_letters {word : In} {t' : Token} (hword : ∀ x ∈ word, 32 ≤ x) (ht : t ≠ .unknown)
    (h : letters t' word l = (t, v, r)) : ∃ p, l = p ++ r ∧ Spells word p ∧ t = t' ∧ v = 0 := by
  induction word generalizing l with
  | nil =>
    obtain ⟨rfl, hrest⟩ := Prod.mk.inj h
    obtain ⟨rfl, rfl⟩ := Prod.mk.inj hrest
    exact ⟨[], rfl, .nil, rfl, rfl⟩
  | cons x word ih =>
    obtain ⟨hx, hword⟩ := List.forall_mem_cons.mp hword
    cases l with
    | nil =>
      rw [letters, getc] at h
      dsimp only at h
      rw [if_neg] at h
      · exact absurd (Prod.mk.inj h).1.symm ht
      · rw [IsLetter, eof]
        omega
    | cons c l =>
      rw [letters, getc] at h
      dsimp only at h
      split_ifs at h with hx
      · obtain ⟨p, rfl, hspells, hrest⟩ := ih hword h
        exact ⟨c :: p, rfl, .cons hx hspells, hrest⟩
      · exact absurd (Prod.mk.inj h).1.symm ht

theorem exists_number (l : In) : ∃ p m, l = p ++ m ∧ (∀ c ∈ p, isDigit c = true) ∧
    startsNumber m = false := by
  induction l with
  | nil => exact ⟨[], [], rfl, by simp, rfl⟩
  | cons c l ih =>
    by_cases hc : isDigit c = true
    · obtain ⟨p, m, rfl, hp, hm⟩ := ih
      exact ⟨c :: p, m, rfl, List.forall_mem_cons.mpr ⟨hc, hp⟩, hm⟩
    · exact ⟨[], c :: l, rfl, by simp, Bool.eq_false_iff.mpr hc⟩

/-- Each token but the last one is read from what it is spelled with. -/
theorem token_cases (l : In) : (token l).1 = .unknown ∨ (token l).1 = .eofToken ∧ AtEnd l ∨
    ∃ w p m t v, l = w ++ (p ++ m) ∧ Spaces w ∧ Piece p t v ∧
      (startsNumber p → startsNumber m = false) ∧ token l = (t, v, behind p m) := by
  induction l with
  | nil => exact Or.inr (Or.inl ⟨rfl, [], [], rfl, by simp [Spaces], Or.inl rfl⟩)
  | cons c l ih =>
    have hpiece : ∀ p m t v, c :: l = p ++ m → Piece p t v →
        (startsNumber p → startsNumber m = false) →
        (token (c :: l)).1 = .unknown ∨ (token (c :: l)).1 = .eofToken ∧ AtEnd (c :: l) ∨
        ∃ w p m t v, c :: l = w ++ (p ++ m) ∧ Spaces w ∧ Piece p t v ∧
          (startsNumber p → startsNumber m = false) ∧ token (c :: l) = (t, v, behind p m) := by
      intro p m t v heq hp hend
      refine Or.inr (Or.inr ⟨[], p, m, t, v, heq, by simp [Spaces], hp, hend, ?_⟩)
      rw [heq]
      exact token_piece hp hend
    by_cases hspace : c = ' '
    · have hsame : token (c :: l) = token l := by rw [token, if_pos hspace]
      rw [hsame]
      rcases ih with hunknown | ⟨heof, w, r, hl, hw, hr⟩ | ⟨w, p, m, t, v, hl, hw, hp, hrest⟩
      · exact Or.inl hunknown
      · refine Or.inr (Or.inl ⟨heof, c :: w, r, by rw [hl]; rfl, ?_, hr⟩)
        exact List.forall_mem_cons.mpr ⟨hspace, hw⟩
      · refine Or.inr (Or.inr ⟨c :: w, p, m, t, v, by rw [hl]; rfl, ?_, hp, hrest⟩)
        exact List.forall_mem_cons.mpr ⟨hspace, hw⟩
    by_cases heof : c = eof
    · refine Or.inr (Or.inl ⟨?_, [], c :: l, rfl, by simp [Spaces], Or.inr (congrArg some heof)⟩)
      rw [token, if_neg hspace, if_pos heof]
    by_cases hdigit : isDigit c = true
    · obtain ⟨p, m, rfl, hp, hm⟩ := exists_number l
      exact hpiece (c :: p) m _ _ rfl (.integer ⟨by simp, List.forall_mem_cons.mpr ⟨hdigit, hp⟩⟩)
        fun _ => hm
    by_cases hn : IsLetter 'n' c
    · exact hpiece [c] l _ _ rfl (.n hn) fun h => absurd h hdigit
    have hletter : ∀ x t word, (∀ x ∈ word, (32 : ℤ) ≤ x) → IsLetter x c →
        token (c :: l) = letters t word l → (∀ p, Spells (x :: word) p → Piece p t 0) →
        (token (c :: l)).1 = .unknown ∨ (token (c :: l)).1 = .eofToken ∧ AtEnd (c :: l) ∨
        ∃ w p m t v, c :: l = w ++ (p ++ m) ∧ Spaces w ∧ Piece p t v ∧
          (startsNumber p → startsNumber m = false) ∧ token (c :: l) = (t, v, behind p m) := by
      intro x t word hword hx htoken hp
      by_cases hunknown : (letters t word l).1 = .unknown
      · exact Or.inl (by rw [htoken, hunknown])
      · obtain ⟨q, hl, hspells, -⟩ := of_letters (t := (letters t word l).1) hword hunknown rfl
        refine hpiece (c :: q) _ t 0 (by rw [List.cons_append, ← hl]) (hp _ (.cons hx hspells)) ?_
        exact fun h => absurd h hdigit
    by_cases he : IsLetter 'e' c
    · refine hletter 'e' .even ['v', 'e', 'n'] (by decide) he ?_ fun p => .even
      rw [token, if_neg hspace, if_neg heof, if_neg hdigit, if_neg hn, if_pos he]
    by_cases ho : IsLetter 'o' c
    · refine hletter 'o' .odd ['d', 'd'] (by decide) ho ?_ fun p => .odd
      rw [token, if_neg hspace, if_neg heof, if_neg hdigit, if_neg hn, if_neg he, if_pos ho]
    by_cases hplus : c = '+'
    · exact hpiece ['+'] l _ _ (by rw [hplus]; rfl) .plus fun h => absurd h (by decide)
    by_cases hminus : c = '-'
    · exact hpiece ['-'] l _ _ (by rw [hminus]; rfl) .minus fun h => absurd h (by decide)
    · refine Or.inl ?_
      rw [token, if_neg hspace, if_neg heof, if_neg hdigit, if_neg hn, if_neg he, if_neg ho,
        if_neg hplus, if_neg hminus]

theorem atEnd_iff (l : In) : AtEnd l ↔ (token l).1 = .eofToken := by
  constructor
  · rintro ⟨w, r, rfl, hw, hr⟩
    rw [token_spaces hw]
    rcases hr with rfl | hr
    · rfl
    · cases r with
      | nil => rfl
      | cons c r =>
        rw [Option.some.inj hr]
        rfl
  · intro heof
    rcases token_cases l with hunknown | ⟨-, hend⟩ | ⟨w, p, m, t, v, -, -, hp, -, htoken⟩
    · rw [hunknown] at heof
      cases heof
    · exact hend
    · rw [htoken] at heof
      cases hp <;> cases heof

theorem Leads.token {ps : List In} (h : Leads (p :: ps) l r) (hp : Piece p t v) :
    ∃ m, NthChild.token l = (t, v, m) ∧ Leads ps m r := by
  cases h with
  | @cons w p m _ _ hw hend hrest =>
    exact ⟨behind p m, by rw [token_spaces hw, token_piece hp hend], hrest⟩

end Reading

section Completeness

variable {l p r : In} {ps sign : List In} {s : ℤ} {form : Form} {a b : ℤ} {n : NthChild}
  {anPlusB : Bytes}

theorem signed_ofInt (m s : ℤ) :
    signed (BitVec.ofInt 64 m) (BitVec.ofInt 64 s) = BitVec.ofInt 32 (s * m) := by
  rw [signed, ← BitVec.ofInt_mul, mul_comm]
  apply BitVec.eq_of_toNat_eq
  rw [BitVec.toNat_setWidth, BitVec.toNat_ofInt, BitVec.toNat_ofInt]
  omega

theorem parse_number (hsign : OptionalSign sign s) (hp : IsNumber p)
    (h : Leads (sign ++ p :: ps) (chars anPlusB) r) : ∃ m,
    n.parse anPlusB = parseFirst { n with fError := "" } (BitVec.ofInt 64 s)
      (.integer, BitVec.ofInt 64 (numberValue p), m) ∧ Leads ps m r := by
  cases hsign with
  | none =>
    obtain ⟨m, htoken, hrest⟩ := h.token (.integer hp)
    refine ⟨m, ?_, hrest⟩
    rw [parse, htoken]
    rfl
  | some hsign =>
    cases hsign with
    | plus =>
      obtain ⟨k, htoken, hrest⟩ := h.token .plus
      obtain ⟨m, htoken', hrest'⟩ := hrest.token (.integer hp)
      refine ⟨m, ?_, hrest'⟩
      rw [parse, htoken]
      dsimp only
      rw [htoken']
      rfl
    | minus =>
      obtain ⟨k, htoken, hrest⟩ := h.token .minus
      obtain ⟨m, htoken', hrest'⟩ := hrest.token (.integer hp)
      refine ⟨m, ?_, hrest'⟩
      rw [parse, htoken]
      dsimp only
      rw [htoken']
      rfl

def Stores (q : Bool × NthChild) (r : In) (a b : ℤ) : Prop :=
  (q.1 = true ↔ AtEnd r) ∧ q.2.fA = BitVec.ofInt 32 a ∧ q.2.fB = BitVec.ofInt 32 b

theorem parseEnd_stores (error : String) (ha : n.fA = BitVec.ofInt 32 a)
    (hb : n.fB = BitVec.ofInt 32 b) : Stores (parseEnd n error l) l a b := by
  rw [Stores, atEnd_iff, parseEnd]
  split_ifs with hend
  · exact ⟨iff_of_true rfl hend, ha, hb⟩
  · exact ⟨iff_of_false (by decide) hend, ha, hb⟩

theorem parse_stores (hform : form = .word ∨ form = .both)
    (hw : Written form ps a b) (h : Leads ps (chars anPlusB) r) :
    Stores (n.parse anPlusB) r a b := by
  cases hw with
  | even hp =>
    obtain ⟨m, htoken, hrest⟩ := h.token (.even hp)
    cases hrest
    rw [parse, htoken]
    exact parseEnd_stores _ rfl rfl
  | odd hp =>
    obtain ⟨m, htoken, hrest⟩ := h.token (.odd hp)
    cases hrest
    rw [parse, htoken]
    exact parseEnd_stores _ rfl rfl
  | lone | first => exact absurd hform (by decide)
  | both hsign hp hc ht hr =>
    obtain ⟨m, hparse, hrest⟩ := parse_number (n := n) hsign hp h
    obtain ⟨m, hletter, hrest⟩ := hrest.token (.n hc)
    rw [hparse, parseFirst]
    dsimp only
    rw [if_neg (by decide), hletter]
    dsimp only
    rw [if_neg (by decide), if_neg (by decide), parseSecond, signed_ofInt]
    cases ht with
    | plus =>
      obtain ⟨m, hplus, hrest⟩ := hrest.token .plus
      obtain ⟨m, hnumber, hrest⟩ := hrest.token (.integer hr)
      cases hrest
      rw [hplus]
      dsimp only
      rw [if_pos (Or.inl rfl), hnumber]
      exact parseEnd_stores _ rfl (signed_ofInt _ 1)
    | minus =>
      obtain ⟨m, hminus, hrest⟩ := hrest.token .minus
      obtain ⟨m, hnumber, hrest⟩ := hrest.token (.integer hr)
      cases hrest
      rw [hminus]
      dsimp only
      rw [if_pos (Or.inr rfl), hnumber]
      exact parseEnd_stores _ rfl (signed_ofInt _ (-1))

theorem parse_lone (hw : Written .lone ps a b)
    (h : Leads ps (chars anPlusB) r) (hend : AtEnd r) : Stores (n.parse anPlusB) r a b := by
  cases hw with
  | lone hsign hp =>
    obtain ⟨m, hparse, hrest⟩ := parse_number (n := n) hsign hp h
    cases hrest
    have hlast := (atEnd_iff r).mp hend
    rw [hparse, parseFirst]
    dsimp only
    rw [if_neg (by decide), if_pos hlast, signed_ofInt]
    exact ⟨iff_of_true rfl hend, rfl, rfl⟩

theorem parse_first (hw : Written .first ps a b)
    (h : Leads ps (chars anPlusB) r) (hend : AtEnd r) : (n.parse anPlusB).1 = false := by
  cases hw with
  | first hsign hp hc =>
    obtain ⟨m, hparse, hrest⟩ := parse_number (n := n) hsign hp h
    obtain ⟨m, hletter, hrest⟩ := hrest.token (.n hc)
    cases hrest
    have hlast := (atEnd_iff r).mp hend
    rw [hparse, parseFirst]
    dsimp only
    rw [if_neg (by decide), hletter]
    dsimp only
    rw [if_neg (by decide), if_neg (by decide), parseSecond]
    dsimp only
    rw [hlast, if_neg (by decide)]

end Completeness

section Soundness

variable {l p r : In} {ps sign : List In} {s : ℤ} {form : Form} {a b : ℤ} {n : NthChild}
  {m : NthChild}

/-- Where an expression is accepted, it was read; otherwise the numbers are kept, unless a word or
both numbers were read. -/
def Sound (n : NthChild) (l : In) (q : Bool × NthChild) : Prop :=
  (q.1 = true → ∃ a b, Accepts l a b) ∧
    (q.1 = false → q.2.fA = n.fA ∧ q.2.fB = n.fB ∨ ∃ a b, Overwrites l a b)

theorem Sound.kept (ha : m.fA = n.fA) (hb : m.fB = n.fB) :
    Sound n l (false, m) := ⟨fun h => absurd h Bool.false_ne_true, fun _ => Or.inl ⟨ha, hb⟩⟩

theorem Sound.end (error : String) (hform : form = .word ∨ form = .both)
    (hw : Written form ps a b) (h : Leads ps l r) : Sound n l (parseEnd m error r) := by
  rw [parseEnd]
  split_ifs with hend
  · refine ⟨fun _ => ⟨a, b, form, ps, r, ?_, hw, h, (atEnd_iff r).mpr hend⟩,
      fun h => absurd h (by simp)⟩
    rcases hform with rfl | rfl <;> decide
  · refine ⟨fun h => absurd h (by simp), fun _ => Or.inr ⟨a, b, form, ps, r, hform, hw, h, ?_⟩⟩
    rwa [atEnd_iff]

theorem Leads.append {m : In} {qs : List In} (h : Leads ps l m) (h' : Leads qs m r) :
    Leads (ps ++ qs) l r := by
  induction h with
  | nil => exact h'
  | cons hw hend _ ih => exact .cons hw hend (ih h')

theorem exists_piece {t : Token} (h : (token l).1 = t) (ht : t ≠ .unknown ∧ t ≠ .eofToken) :
    ∃ p m v, Piece p t v ∧ Leads [p] l m ∧ token l = (t, v, m) := by
  rcases token_cases l with hunknown | ⟨heof, -⟩ | ⟨w, p, m, t', v, rfl, hw, hp, hend, htoken⟩
  · exact absurd (h.symm.trans hunknown) ht.1
  · exact absurd (h.symm.trans heof) ht.2
  · rw [htoken] at h
    obtain rfl : t' = t := h
    exact ⟨p, _, v, hp, .cons hw hend .nil, htoken⟩

theorem sound_second {c : ℤ} {q k : In} {t : ℤ} (error : String)
    {secondSign : BitVec 64} {first : BitVec 32} (hsign : OptionalSign sign s) (hp : IsNumber p)
    (hc : IsLetter 'n' c) (hq : Sign q t) (h : Leads (sign ++ [p, [c], q]) l k)
    (hinteger : (token k).1 = .integer) :
    Sound n l (parseEnd { m with fA := first, fB := signed (token k).2.1 secondSign } error
      (token k).2.2) := by
  obtain ⟨q', r, v, hq', hlead, htoken⟩ := exists_piece hinteger (by decide)
  rw [htoken]
  have hall := h.append hlead
  rw [List.append_assoc] at hall
  cases hq' with
  | integer hnumber => exact .end _ (Or.inr rfl) (.both hsign hp hc hq hnumber) hall

theorem parseSecond_sound {first : BitVec 32} {c : ℤ} (hsign : OptionalSign sign s)
    (hp : IsNumber p) (hc : IsLetter 'n' c) (ha : m.fA = n.fA) (hb : m.fB = n.fB)
    (h : Leads (sign ++ [p, [c]]) l r) : Sound n l (parseSecond m first r) := by
  have hsecond : ∀ q t k, Sign q t → Leads [q] r k → ∀ error secondSign,
      Sound n l (if (token k).1 ≠ .integer then
        (false, { m with fError := "The value B must be a valid integer in 'An+B'." })
        else parseEnd { m with fA := first, fB := signed (token k).2.1 secondSign } error
          (token k).2.2) := by
    intro q t k hq hlead error secondSign
    have hall := h.append hlead
    rw [List.append_assoc] at hall
    split_ifs with hinteger
    · exact .kept ha hb
    · exact sound_second error hsign hp hc hq hall (not_not.mp hinteger)
  rw [parseSecond]
  dsimp only
  by_cases hplus : (token r).1 = .plus
  · obtain ⟨q, k, v, hq, hlead, htoken⟩ := exists_piece hplus (by decide)
    rw [htoken]
    cases hq with
    | plus => exact hsecond _ _ k .plus hlead _ _
  by_cases hminus : (token r).1 = .minus
  · obtain ⟨q, k, v, hq, hlead, htoken⟩ := exists_piece hminus (by decide)
    rw [htoken]
    cases hq with
    | minus => exact hsecond _ _ k .minus hlead _ _
  · rw [if_neg (not_or.mpr ⟨hplus, hminus⟩)]
    exact .kept ha hb

theorem parseFirst_sound {k : In} (hsign : OptionalSign sign s)
    (ha : m.fA = n.fA) (hb : m.fB = n.fB) (h : Leads sign l k) (firstSign : BitVec 64) :
    Sound n l (parseFirst m firstSign (token k)) := by
  rw [parseFirst]
  dsimp only
  by_cases hinteger : (token k).1 = .integer
  · obtain ⟨p, r, v, hp, hlead, htoken⟩ := exists_piece hinteger (by decide)
    have hall := h.append hlead
    rw [htoken, if_neg (not_not.mpr rfl)]
    cases hp with
    | integer hp =>
      dsimp only
      by_cases hend : (token r).1 = .eofToken
      · rw [if_pos hend]
        exact ⟨fun _ => ⟨_, _, .lone, _, r, by decide, .lone hsign hp, hall,
          (atEnd_iff r).mpr hend⟩, fun h => absurd h (by simp)⟩
      rw [if_neg hend]
      by_cases hletter : (token r).1 = .n
      · obtain ⟨q, r', v', hq, hlead', htoken'⟩ := exists_piece hletter (by decide)
        rw [htoken', if_neg (not_not.mpr rfl)]
        have hall' := hall.append hlead'
        rw [List.append_assoc] at hall'
        cases hq with
        | n hc => exact parseSecond_sound hsign hp hc ha hb hall'
      · rw [if_pos hletter]
        exact .kept ha hb
  · rw [if_pos hinteger]
    exact .kept ha hb

theorem parse_sound (n : NthChild) (anPlusB : Bytes) :
    Sound n (chars anPlusB) (n.parse anPlusB) := by
  rw [parse]
  dsimp only
  split_ifs with heven hodd hplus hminus
  · obtain ⟨p, r, v, hp, hlead, htoken⟩ := exists_piece heven (by decide)
    rw [htoken]
    cases hp with
    | even hp => exact .end _ (Or.inl rfl) (.even hp) hlead
  · obtain ⟨p, r, v, hp, hlead, htoken⟩ := exists_piece hodd (by decide)
    rw [htoken]
    cases hp with
    | odd hp => exact .end _ (Or.inl rfl) (.odd hp) hlead
  · obtain ⟨p, r, v, hp, hlead, htoken⟩ := exists_piece hplus (by decide)
    rw [htoken]
    cases hp with
    | plus => exact parseFirst_sound (.some .plus) rfl rfl hlead 1
  · obtain ⟨p, r, v, hp, hlead, htoken⟩ := exists_piece hminus (by decide)
    rw [htoken]
    cases hp with
    | minus => exact parseFirst_sound (.some .minus) rfl rfl hlead (-1)
  · exact parseFirst_sound .none rfl rfl .nil 1

end Soundness

section Values

variable {l p r u : In} {ps sign : List In} {s : ℤ} {form : Form} {a b a' b' : ℤ} {n : NthChild}

def readSign : In → ℤ × In
  | [] => (1, [])
  | c :: l => if c = '+' then (1, l) else if c = '-' then (-1, l) else (1, c :: l)

/-- The numbers that an expression of the grammar stands for. -/
def valueOf (u : In) : ℤ × ℤ :=
  let (s, l) := readSign u
  let p := l.takeWhile isDigit
  let m := l.dropWhile isDigit
  if p = [] then (2, if u.length = 3 then 1 else 0)
  else if m = [] then (0, s * numberValue p)
  else
    let (t, q) := readSign m.tail
    (s * numberValue p, t * numberValue q)

theorem readSign_number (hp : IsNumber p) (l : In) : readSign (p ++ l) = (1, p ++ l) := by
  obtain ⟨hne, hp⟩ := hp
  obtain ⟨c, p, rfl⟩ := List.exists_cons_of_ne_nil hne
  have hc := hp c List.mem_cons_self
  have hplus : c ≠ '+' := by rintro rfl; exact absurd hc (by decide)
  have hminus : c ≠ '-' := by rintro rfl; exact absurd hc (by decide)
  rw [List.cons_append, readSign, if_neg hplus, if_neg hminus]

theorem readSign_optional (hsign : OptionalSign sign s) (hp : IsNumber p) (l : In) :
    readSign (sign.flatten ++ (p ++ l)) = (s, p ++ l) := by
  cases hsign with
  | none => exact readSign_number hp l
  | some hsign => cases hsign <;> rfl

theorem takeWhile_number (hp : IsNumber p) (hl : startsNumber l = false) :
    (p ++ l).takeWhile isDigit = p ∧ (p ++ l).dropWhile isDigit = l := by
  cases l with
  | nil =>
    rw [List.append_nil]
    exact ⟨List.takeWhile_eq_self_iff.mpr hp.2, List.dropWhile_eq_nil_iff.mpr hp.2⟩
  | cons c l =>
    have hc : ¬ isDigit c = true := Bool.eq_false_iff.mp hl
    rw [List.takeWhile_append_of_pos hp.2, List.dropWhile_append_of_pos hp.2,
      List.takeWhile_cons_of_neg hc, List.dropWhile_cons_of_neg hc, List.append_nil]
    exact ⟨rfl, rfl⟩

theorem valueOf_number (hsign : OptionalSign sign s) (hp : IsNumber p)
    (hl : startsNumber l = false) : valueOf (sign.flatten ++ (p ++ l)) =
      if l = [] then (0, s * numberValue p)
      else (s * numberValue p, (readSign l.tail).1 * numberValue (readSign l.tail).2) := by
  obtain ⟨htake, hdrop⟩ := takeWhile_number hp hl
  rw [valueOf, readSign_optional hsign hp]
  dsimp only
  rw [htake, hdrop, if_neg hp.1]

theorem startsNumber_letter {c : ℤ} (hc : IsLetter 'n' c) (l : In) :
    startsNumber (c :: l) = false := by
  rcases hc with rfl | rfl <;> rfl

theorem Written.valueOf (h : Written form ps a b) : valueOf ps.flatten = (a, b) := by
  cases h with
  | even hp | odd hp =>
    cases hp with
    | cons hc hp =>
      have hlength := hp.length_eq
      rw [List.flatten_singleton, NthChild.valueOf]
      rcases hc with rfl | rfl
      · simp [readSign, isDigit, ← hlength]
      · simp [readSign, isDigit, ← hlength]
  | lone hsign hp =>
    have h := valueOf_number (l := []) hsign hp rfl
    rw [if_pos rfl] at h
    rw [List.flatten_append, List.flatten_singleton, ← h, List.append_nil]
  | @first sign s p c hsign hp hc =>
    have h := valueOf_number hsign hp (startsNumber_letter hc [])
    rw [if_neg (List.cons_ne_nil _ _)] at h
    rw [List.flatten_append]
    exact h.trans (by simp [readSign, numberValue])
  | @both sign s p c q t r hsign hp hc ht hr =>
    have h := valueOf_number hsign hp (startsNumber_letter hc (q ++ r))
    rw [if_neg (List.cons_ne_nil _ _)] at h
    have hsecond := readSign_optional (.some ht) hr []
    rw [List.flatten_singleton, List.append_nil] at hsecond
    rw [List.tail_cons, hsecond] at h
    rw [List.flatten_append, ← h]
    simp

theorem Derives.unique (h : Derives u a b) (h' : Derives u a' b') : a = a' ∧ b = b' := by
  obtain ⟨form, ps, hw, rfl⟩ := h
  obtain ⟨form', ps', hw', heq⟩ := h'
  have hvalue := hw.valueOf
  rw [heq, hw'.valueOf] at hvalue
  exact Prod.mk.inj hvalue.symm

theorem Written.large (h : Written form ps a b) : ∀ c ∈ ps.flatten, 32 < c := by
  have hspells : ∀ {word p : In}, (∀ x ∈ word, 65 ≤ x) → Spells word p → ∀ c ∈ p, 32 < c := by
    intro word p hword h
    induction h with
    | nil => simp
    | cons hc _ ih =>
      obtain ⟨hx, hword⟩ := List.forall_mem_cons.mp hword
      refine List.forall_mem_cons.mpr ⟨?_, ih hword⟩
      rcases hc with rfl | rfl <;> omega
  have hnumber : ∀ {p : In}, IsNumber p → ∀ c ∈ p, 32 < c := by
    intro p hp c hc
    have hdigit := hp.2 c hc
    rw [isDigit, Bool.and_eq_true, decide_eq_true_eq, decide_eq_true_eq] at hdigit
    simp only [Char.reduceToNat, Nat.cast_ofNat] at hdigit
    omega
  have hsign : ∀ {p : In} {s : ℤ}, Sign p s → ∀ c ∈ p, 32 < c := by
    rintro p s (h | h) <;> decide
  have hoptional : ∀ {sign : List In} {s : ℤ}, OptionalSign sign s →
      ∀ c ∈ sign.flatten, 32 < c := by
    intro sign s h
    cases h with
    | none => simp
    | some h =>
      rw [List.flatten_singleton]
      exact hsign h
  have hletter : ∀ {c : ℤ}, IsLetter 'n' c → 32 < c := by
    rintro c (rfl | rfl) <;> decide
  intro c hc
  cases h with
  | even hp | odd hp => exact hspells (by decide) hp c (by simpa using hc)
  | lone hs hp =>
    rw [List.flatten_append, List.flatten_singleton] at hc
    exact (List.mem_append.mp hc).elim (hoptional hs c) (hnumber hp c)
  | first hs hp hn =>
    simp only [List.flatten_append, List.mem_append, List.flatten_cons, List.flatten_nil,
      List.append_nil, List.mem_singleton] at hc
    rcases hc with hc | hc | rfl
    · exact hoptional hs c hc
    · exact hnumber hp c hc
    · exact hletter hn
  | both hs hp hn ht hr =>
    simp only [List.flatten_append, List.mem_append, List.flatten_cons, List.flatten_nil,
      List.append_nil, List.mem_singleton] at hc
    rcases hc with hc | hc | rfl | hc | hc
    · exact hoptional hs c hc
    · exact hnumber hp c hc
    · exact hletter hn
    · exact hsign ht c hc
    · exact hnumber hr c hc

theorem unspaced_spaces {w : In} (hw : Spaces w) : unspaced w = [] := by
  rw [unspaced, List.filter_eq_nil_iff]
  intro c hc
  simpa using hw c hc

theorem unspaced_append (l m : In) : unspaced (l ++ m) = unspaced l ++ unspaced m :=
  List.filter_append _ _

theorem Leads.unspaced (h : Leads ps l r) (hl : ∀ c ∈ l, c ≠ 0) :
    unspaced l = unspaced ps.flatten ++ unspaced r ∧ ∀ c ∈ r, c ∈ l := by
  induction h with
  | nil => exact ⟨rfl, fun c hc => hc⟩
  | @cons w p l r ps hw hend hrest ih =>
    have hbehind : behind p l = l := by
      cases l with
      | nil => rfl
      | cons c l =>
        have hc : c ≠ 0 := hl c (by simp)
        rw [behind, ungetc, if_neg hc, ite_self]
    rw [hbehind] at ih
    obtain ⟨hsame, hmem⟩ := ih fun c hc => hl c (by simp [hc])
    refine ⟨?_, fun c hc => by simp [hmem c hc]⟩
    rw [unspaced_append, unspaced_append, unspaced_spaces hw, hsame, List.flatten_cons,
      unspaced_append, List.nil_append, List.append_assoc]

theorem unspaced_written (h : Written form ps a b) : NthChild.unspaced ps.flatten = ps.flatten := by
  rw [NthChild.unspaced, List.filter_eq_self]
  intro c hc
  have hlarge := h.large c hc
  simp only [Char.reduceToNat, Nat.cast_ofNat, ne_eq, decide_eq_true_eq]
  omega

theorem Accepts.values (h : Accepts l a b) (h' : Derives (NthChild.unspaced l) a' b') :
    a = a' ∧ b = b' := by
  have hlarge : ∀ c ∈ l, c ≠ 0 ∧ c ≠ eof := by
    intro c hc
    by_cases hspace : c = ' '
    · rw [hspace]
      decide
    · obtain ⟨form, ps, hw, heq⟩ := h'
      have hmem : c ∈ NthChild.unspaced l := List.mem_filter.mpr ⟨hc, by simpa using hspace⟩
      rw [heq] at hmem
      have := hw.large c hmem
      rw [eof]
      omega
  obtain ⟨form, ps, r, -, hw, hlead, w, m, rfl, hspaces, hend⟩ := h
  obtain ⟨hsame, hmem⟩ := hlead.unspaced fun c hc => (hlarge c hc).1
  have hm : m = [] := by
    refine hend.resolve_right fun hhead => ?_
    have heof : eof ∈ m := List.mem_of_mem_head? hhead
    exact (hlarge eof (hmem eof (List.mem_append_right w heof))).2 rfl
  rw [hm, List.append_nil, unspaced_spaces hspaces, List.append_nil, unspaced_written hw] at hsame
  exact Derives.unique ⟨form, ps, hw, hsame⟩ h'

end Values

section Printed

variable {p : In} {ps : List In} {form : Form} {a b : ℤ} {n other : NthChild}

theorem char_digit {c : Char} (h : c.isDigit = true) :
    toChar c.toNat.toUInt8 = c.toNat ∧ isDigit (toChar c.toNat.toUInt8) = true := by
  have hrange : 48 ≤ c.toNat ∧ c.toNat ≤ 57 := by
    simpa [Char.isDigit, UInt32.le_iff_toNat_le] using h
  have hchar : ∀ k : ℕ, 48 ≤ k → k ≤ 57 → toChar k.toUInt8 = k := by
    intro k hlow hhigh
    interval_cases k <;> rfl
  have hsame := hchar c.toNat hrange.1 hrange.2
  refine ⟨hsame, ?_⟩
  rw [hsame, isDigit, Bool.and_eq_true, decide_eq_true_eq, decide_eq_true_eq]
  simp only [Char.reduceToNat, Nat.cast_ofNat]
  omega

theorem chars_decimal (k : ℕ) :
    IsNumber (chars (decimal k)) ∧ numberValue (chars (decimal k)) = k := by
  have hdigit : ∀ c ∈ Nat.toDigits 10 k, c.isDigit = true := fun c hc =>
    Nat.isDigit_of_mem_toDigits (by decide) (by decide) hc
  have hfold : ∀ (cs : List Char) (m : ℕ), (∀ c ∈ cs, c.isDigit = true) →
      (chars (cs.map fun c => c.toNat.toUInt8)).foldl (fun n c => n * 10 + (c - ('0' : ℤ))) m =
        (Nat.ofDigitChars 10 cs m : ℤ) := by
    intro cs
    induction cs with
    | nil => intro m _; simp [chars, Nat.ofDigitChars]
    | cons c cs ih =>
      intro m hcs
      obtain ⟨hc, hcs⟩ := List.forall_mem_cons.mp hcs
      have hlow : 48 ≤ c.toNat := by
        have hrange := hc
        rw [Char.isDigit, Bool.and_eq_true, decide_eq_true_eq, decide_eq_true_eq] at hrange
        exact hrange.1
      rw [Nat.ofDigitChars_cons, ← ih _ hcs, List.map_cons, chars, List.map_cons, List.foldl_cons,
        (char_digit hc).1, ← chars]
      congr 1
      simp only [Char.reduceToNat, Nat.cast_ofNat]
      omega
  refine ⟨⟨?_, ?_⟩, ?_⟩
  · simp only [chars, decimal, ne_eq, List.map_eq_nil_iff]
    exact Nat.toDigits_ne_nil
  · intro c hc
    rw [chars, decimal, List.map_map] at hc
    obtain ⟨d, hd, rfl⟩ := List.mem_map.mp hc
    exact (char_digit (hdigit d hd)).2
  · rw [decimal, numberValue]
    exact (hfold _ 0 hdigit).trans (by rw [Nat.ofDigitChars_ten_toDigits])

theorem Leads.plain {l r : In} (hl : ∀ c ∈ l, c ≠ 0)
    (hend : startsNumber p → startsNumber l = false) (h : Leads ps l r) :
    Leads (p :: ps) (p ++ l) r := by
  have hbehind : behind p l = l := by
    cases l with
    | nil => rfl
    | cons c l => rw [behind, ungetc, if_neg (hl c List.mem_cons_self), ite_self]
  rw [← List.nil_append (p ++ l)]
  exact .cons (by simp [Spaces]) hend (by rwa [hbehind])

theorem sign_notNumber {s : ℤ} (h : Sign p s) (l : In) : startsNumber (p ++ l) = false := by
  cases h <;> rfl

theorem Written.leads (h : Written form ps a b) : Leads ps ps.flatten [] := by
  have hlarge : ∀ c ∈ ps.flatten, c ≠ 0 := fun c hc => by
    have := h.large c hc
    omega
  have hsign : ∀ {sign : List In} {s : ℤ} {qs : List In}, OptionalSign sign s →
      (∀ c ∈ (sign ++ qs).flatten, c ≠ 0) → Leads qs qs.flatten [] →
      Leads (sign ++ qs) (sign ++ qs).flatten [] := by
    intro sign s qs hsign hall hlead
    cases hsign with
    | none => exact hlead
    | @some p s hs =>
      have hp := sign_notNumber hs []
      rw [List.append_nil] at hp
      refine .plain (fun c hc => hall c ?_) (fun h => absurd h (by simp [hp])) hlead
      exact List.mem_append_right p hc
  have hlast : ∀ q : In, Leads [q] [q].flatten [] := fun q =>
    .plain (by simp) (fun _ => rfl) .nil
  cases h with
  | even => exact hlast _
  | odd => exact hlast _
  | lone hs => exact hsign hs hlarge (hlast _)
  | first hs hp hc =>
    refine hsign hs hlarge (.plain (fun c hc => hlarge c ?_) (fun _ => ?_) (hlast _))
    · simp only [List.flatten_append, List.flatten_cons, List.mem_append]
      exact Or.inr (Or.inr (by simpa using hc))
    · exact startsNumber_letter hc _
  | @both sign s p c q t r hs hp hc ht hr =>
    have hrest : ∀ d ∈ c :: (q ++ r), d ≠ 0 := fun d hd => hlarge d (by
      simp only [List.flatten_append, List.flatten_cons, List.mem_append, List.mem_cons,
        List.flatten_nil, List.append_nil] at hd ⊢
      tauto)
    obtain ⟨-, hqr⟩ := List.forall_mem_cons.mp hrest
    have hletter : ¬ startsNumber [c] = true := by simp [startsNumber_letter hc []]
    have hq := sign_notNumber ht []
    rw [List.append_nil] at hq
    have hsecond : Leads [q, r] (q ++ r) [] := by
      have hr := hlast r
      rw [List.flatten_singleton] at hr
      exact .plain (fun c hc => hqr c (List.mem_append_right q hc))
        (fun h => absurd h (by simp [hq])) hr
    have hthird : Leads [[c], q, r] (c :: (q ++ r)) [] :=
      .plain hqr (fun h => absurd h hletter) hsecond
    have hfirst : Leads [p, [c], q, r] (p ++ (c :: (q ++ r))) [] :=
      .plain hrest (fun _ => startsNumber_letter hc _) hthird
    refine hsign hs hlarge ?_
    simpa using hfirst

theorem chars_append (l m : Bytes) : chars (l ++ m) = chars l ++ chars m := List.map_append

theorem chars_signedDecimal (z : ℤ) : ∃ sign s p, OptionalSign sign s ∧ IsNumber p ∧
    s * numberValue p = z ∧ chars (signedDecimal z) = sign.flatten ++ p := by
  obtain ⟨hnumber, hvalue⟩ := chars_decimal z.natAbs
  rw [signedDecimal]
  split_ifs with hneg
  · refine ⟨[['-']], -1, _, .some .minus, hnumber, ?_, rfl⟩
    rw [hvalue]
    omega
  · refine ⟨[], 1, _, .none, hnumber, ?_, rfl⟩
    rw [hvalue]
    omega

theorem chars_second (z : ℤ) : ∃ q t p, Sign q t ∧ IsNumber p ∧ t * numberValue p = z ∧
    chars ((if 0 ≤ z then [43] else []) ++ signedDecimal z) = q ++ p := by
  obtain ⟨hnumber, hvalue⟩ := chars_decimal z.natAbs
  rw [signedDecimal]
  by_cases hneg : z < 0
  · rw [if_neg (by omega), if_pos hneg]
    refine ⟨['-'], -1, _, .minus, hnumber, ?_, rfl⟩
    rw [hvalue]
    omega
  · rw [if_pos (by omega), if_neg hneg]
    refine ⟨['+'], 1, _, .plus, hnumber, ?_, rfl⟩
    rw [hvalue]
    omega

/-- What is printed is an expression of the grammar, with both numbers unless one of them is 0. -/
theorem toString_written (n : NthChild) : ∃ form ps, Written form ps n.fA.toInt n.fB.toInt ∧
    chars n.toString = ps.flatten ∧ (form = .first ↔ n.fA ≠ 0 ∧ n.fB = 0) := by
  have hletter : IsLetter 'n' 'n' := Or.inl rfl
  rw [toString]
  by_cases htwo : n.fA = 2 ∧ n.fB = 0
  · rw [if_pos htwo, htwo.1, htwo.2]
    refine ⟨.first, [['2'], ['n']], ?_, rfl, by decide⟩
    exact .first .none ⟨by simp, by decide⟩ hletter
  rw [if_neg htwo]
  by_cases hodd : n.fA = 2 ∧ n.fB = 1
  · rw [if_pos hodd, hodd.1, hodd.2]
    refine ⟨.word, [['o', 'd', 'd']], .odd ?_, rfl, by decide⟩
    exact .cons (Or.inl rfl) (.cons (Or.inl rfl) (.cons (Or.inl rfl) .nil))
  rw [if_neg hodd]
  by_cases ha : n.fA = 0
  · rw [if_pos ha]
    obtain ⟨sign, s, p, hsign, hp, hvalue, htext⟩ := chars_signedDecimal n.fB.toInt
    refine ⟨.lone, sign ++ [p], ?_, by simp [htext], iff_of_false (by decide) fun h => h.1 ha⟩
    have h : Written .lone (sign ++ [p]) 0 _ := .lone hsign hp
    rw [hvalue] at h
    rwa [ha]
  rw [if_neg ha]
  obtain ⟨sign, s, p, hsign, hp, hvalue, htext⟩ := chars_signedDecimal n.fA.toInt
  by_cases hb : n.fB = 0
  · rw [if_pos hb]
    refine ⟨.first, sign ++ [p, ['n']], ?_, ?_, iff_of_true rfl ⟨ha, hb⟩⟩
    · have h : Written .first (sign ++ [p, ['n']]) _ 0 := .first hsign hp hletter
      rw [hvalue] at h
      rwa [hb]
    · rw [chars_append, htext]
      simp [chars]
      rfl
  · rw [if_neg hb]
    obtain ⟨q, t, r, ht, hr, hvalue', htext'⟩ := chars_second n.fB.toInt
    refine ⟨.both, sign ++ [p, ['n'], q, r], ?_, ?_, iff_of_false (by decide) fun h => hb h.2⟩
    · have h : Written .both (sign ++ [p, ['n'], q, r]) _ _ := .both hsign hp hletter ht hr
      rwa [hvalue, hvalue'] at h
    · rw [chars_append, htext, chars, List.map_cons, ← chars, htext']
      simp
      rfl

end Printed

section Correct

variable {a b : ℤ} {n m : NthChild} {anPlusB : Bytes}

/-- What an object prints is accepted by any object, and gives it the same numbers. -/
def PrintedBack (m : NthChild) : Prop :=
  ∀ n : NthChild, (n.parse m.toString).1 = true ∧
    (n.parse m.toString).2.fA = m.fA ∧ (n.parse m.toString).2.fB = m.fB

theorem printedBack_iff (m : NthChild) : PrintedBack m ↔ m.fA = 0 ∨ m.fB ≠ 0 := by
  obtain ⟨form, ps, hw, htext, hfirst⟩ := toString_written m
  have hlead := hw.leads
  rw [← htext] at hlead
  have hend : AtEnd [] := ⟨[], [], rfl, by simp [Spaces], Or.inl rfl⟩
  constructor
  · intro h
    by_contra hnot
    rw [not_or, not_not] at hnot
    rw [hfirst.mpr hnot] at hw
    have hfalse := parse_first (n := m) hw hlead hend
    rw [(h m).1] at hfalse
    cases hfalse
  · intro h n
    have hform : form ≠ .first := fun hform => by
      have := hfirst.mp hform
      tauto
    have hstores : Stores (n.parse m.toString) [] m.fA.toInt m.fB.toInt := by
      cases form with
      | word => exact parse_stores (Or.inl rfl) hw hlead
      | lone => exact parse_lone hw hlead hend
      | first => exact absurd rfl hform
      | both => exact parse_stores (Or.inr rfl) hw hlead
    obtain ⟨haccept, ha, hb⟩ := hstores
    rw [BitVec.ofInt_toInt] at ha hb
    exact ⟨haccept.mpr hend, ha, hb⟩

theorem and_mask (x : BitVec 32) : x.signExtend 64 &&& 0xFFFFFFFF = x.setWidth 64 := by
  have hmask : (0xFFFFFFFF : BitVec 64) = (BitVec.allOnes 32).setWidth 64 := rfl
  rw [hmask]
  ext i hi
  simp only [BitVec.getElem_and, BitVec.getElem_signExtend, BitVec.getElem_setWidth,
    BitVec.getLsbD_allOnes]
  split_ifs with hlow
  · simp [hlow, BitVec.getLsbD_eq_getElem]
  · simp [hlow, BitVec.getLsbD_of_ge x i (by omega)]

theorem ofNth_getNth (m : NthChild) :
    (ofNth m.getNth).fA = m.fA ∧ (ofNth m.getNth).fB = m.fB := by
  rw [ofNth, getNth, and_mask, and_mask]
  constructor
  · ext i hi
    simp
  · ext i hi
    have hshift : 32 + i < 64 := by omega
    have hlow : i < 64 := by omega
    simp only [BitVec.getElem_setWidth, BitVec.getLsbD_sshiftRight, BitVec.getLsbD_or,
      BitVec.getLsbD_shiftLeft, BitVec.getLsbD_setWidth]
    simp [hshift, hlow, hi]

def Fits (a : ℤ) : Prop := -2 ^ 31 ≤ a ∧ a < 2 ^ 31

theorem toInt_ofInt_iff (a : ℤ) : (BitVec.ofInt 32 a).toInt = a ↔ Fits a := by
  rw [BitVec.toInt_ofInt, Fits, Int.bmod_def]
  split_ifs <;> omega

/-- What is expected of `parse()`. -/
structure Correct (n : NthChild) (anPlusB : Bytes) : Prop where
  accepts : (n.parse anPlusB).1 = true ↔ ∃ a b, Derives (unspaced (chars anPlusB)) a b
  values : (n.parse anPlusB).1 = true → ∀ a b, Derives (unspaced (chars anPlusB)) a b →
    (n.parse anPlusB).2.fA.toInt = a ∧ (n.parse anPlusB).2.fB.toInt = b
  printed : (n.parse anPlusB).1 = true → PrintedBack (n.parse anPlusB).2
  nth : (n.parse anPlusB).1 = true →
    (ofNth (n.parse anPlusB).2.getNth).fA = (n.parse anPlusB).2.fA ∧
      (ofNth (n.parse anPlusB).2.getNth).fB = (n.parse anPlusB).2.fB
  kept : (n.parse anPlusB).1 = false →
    (n.parse anPlusB).2.fA = n.fA ∧ (n.parse anPlusB).2.fB = n.fB

theorem Accepts.stores (h : Accepts (chars anPlusB) a b) (n : NthChild) :
    (n.parse anPlusB).1 = true ∧ (n.parse anPlusB).2.fA = BitVec.ofInt 32 a ∧
      (n.parse anPlusB).2.fB = BitVec.ofInt 32 b := by
  obtain ⟨form, ps, r, hform, hw, hlead, hend⟩ := h
  have hstores : Stores (n.parse anPlusB) r a b := by
    cases form with
    | word => exact parse_stores (Or.inl rfl) hw hlead
    | lone => exact parse_lone hw hlead hend
    | first => exact absurd rfl hform
    | both => exact parse_stores (Or.inr rfl) hw hlead
  exact ⟨hstores.1.mpr hend, hstores.2⟩

theorem Overwrites.stores (h : Overwrites (chars anPlusB) a b) (n : NthChild) :
    (n.parse anPlusB).1 = false ∧ (n.parse anPlusB).2.fA = BitVec.ofInt 32 a ∧
      (n.parse anPlusB).2.fB = BitVec.ofInt 32 b := by
  obtain ⟨form, ps, r, hform, hw, hlead, hend⟩ := h
  obtain ⟨haccept, hstored⟩ := parse_stores (n := n) hform hw hlead
  exact ⟨Bool.eq_false_iff.mpr fun h => hend (haccept.mp h), hstored⟩

theorem parse_correct_iff (n : NthChild) (anPlusB : Bytes) :
    Correct n anPlusB ↔
      (∃ a b, Accepts (chars anPlusB) a b ∧ Derives (unspaced (chars anPlusB)) a b ∧
        Fits a ∧ Fits b ∧ (a = 0 ∨ b ≠ 0)) ∨
      (∀ a b, ¬ Derives (unspaced (chars anPlusB)) a b) ∧
        (∀ a b, ¬ Accepts (chars anPlusB) a b) ∧
        ∀ a b, Overwrites (chars anPlusB) a b →
          n.fA = BitVec.ofInt 32 a ∧ n.fB = BitVec.ofInt 32 b := by
  obtain ⟨hsound, hkept⟩ := parse_sound n anPlusB
  constructor
  · intro h
    by_cases haccept : (n.parse anPlusB).1 = true
    · left
      obtain ⟨a, b, haccepts⟩ := hsound haccept
      obtain ⟨a', b', hderives⟩ := h.accepts.mp haccept
      obtain ⟨rfl, rfl⟩ := haccepts.values hderives
      obtain ⟨-, ha, hb⟩ := haccepts.stores n
      obtain ⟨ha', hb'⟩ := h.values haccept a b hderives
      have hfits : Fits a ∧ Fits b := by
        rw [← toInt_ofInt_iff, ← toInt_ofInt_iff, ← ha, ← hb]
        exact ⟨ha', hb'⟩
      refine ⟨a, b, haccepts, hderives, hfits.1, hfits.2, ?_⟩
      refine ((printedBack_iff _).mp (h.printed haccept)).imp (fun hzero => ?_) fun hne hzero => ?_
      · rw [← ha', hzero]
        rfl
      · rw [hzero] at hb
        exact hne hb
    · right
      rw [Bool.not_eq_true] at haccept
      refine ⟨fun a b hderives => ?_, fun a b haccepts => ?_, fun a b hover => ?_⟩
      · rw [h.accepts.mpr ⟨a, b, hderives⟩] at haccept
        cases haccept
      · rw [(haccepts.stores n).1] at haccept
        cases haccept
      · obtain ⟨ha, hb⟩ := h.kept haccept
        rw [← ha, ← hb]
        exact (hover.stores n).2
  · rintro (⟨a, b, haccepts, hderives, ha, hb, hprinted⟩ | ⟨hderives, haccepts, hover⟩)
    · obtain ⟨htrue, hfA, hfB⟩ := haccepts.stores n
      refine ⟨iff_of_true htrue ⟨a, b, hderives⟩, fun _ a' b' hderives' => ?_, fun _ => ?_,
        fun _ => ofNth_getNth _, fun hfalse => ?_⟩
      · obtain ⟨rfl, rfl⟩ := hderives.unique hderives'
        rw [hfA, hfB]
        exact ⟨(toInt_ofInt_iff a).mpr ha, (toInt_ofInt_iff b).mpr hb⟩
      · rw [printedBack_iff, hfA, hfB]
        refine hprinted.imp (fun hzero => by rw [hzero]; rfl) fun hne hzero => hne ?_
        rw [← (toInt_ofInt_iff b).mpr hb, hzero]
        rfl
      · rw [htrue] at hfalse
        cases hfalse
    · have hfalse : (n.parse anPlusB).1 = false := by
        rw [Bool.eq_false_iff]
        intro htrue
        obtain ⟨a, b, h⟩ := hsound htrue
        exact haccepts a b h
      have hne : (n.parse anPlusB).1 ≠ true := Bool.eq_false_iff.mp hfalse
      refine ⟨iff_of_false hne fun ⟨a, b, h⟩ => hderives a b h, fun h => absurd h hne,
        fun h => absurd h hne, fun h => absurd h hne, fun _ => ?_⟩
      rcases hkept hfalse with hsame | ⟨a, b, h⟩
      · exact hsame
      · obtain ⟨ha, hb⟩ := hover a b h
        rw [ha, hb]
        exact (h.stores n).2

/-- The letter without a second number is in the grammar, and is refused. -/
theorem parse_first_refused : ¬ ∀ n anPlusB, Correct n anPlusB := by
  intro h
  have hderives : ∃ a b, Derives (unspaced (chars [50, 110])) a b :=
    ⟨_, _, .first, [['2'], ['n']],
      .first .none ⟨List.cons_ne_nil _ _, by decide⟩ (Or.inl rfl), rfl⟩
  have haccept := (h {} [50, 110]).accepts.mpr hderives
  exact absurd haccept (by decide)

end Correct

end NthChild

end SnapCpp
