import SnapCpp.PlaceMarkers
import SnapCpp.Pieces
import SnapCpp.QNumber

/-!
One end of a link between two pages: the name of the link, the page and its branch, and whether
the page has one such link or many. The rows, the columns and the data of the database are texts
made of these. The texts are written with `QString::arg()`, which also finds the place markers of
the key of the page; a key without percent signs has none.
-/
namespace SnapCpp

open QString QNumber PlaceMarkers

structure LinkInfo where
  unique : Bool
  name : QString
  key : QString
  branch : UInt32
deriving DecidableEq, Repr

inductive InvalidName where
  | linksNamespace
  | endsWithColon
  | namespaceOperator
  | endsWithOperator
  | colon
  | character (c : UInt16)
  | noNamespace
  | endsWithLinks
deriving DecidableEq, Repr

inductive LinksException where
  | invalidName (what : InvalidName)
  | lessPrecise
  | sameEnds
  | notFourLines
  | notVariables
  | notUnique
  | notBranch
deriving DecidableEq, Repr

namespace LinkInfo

def colon : UInt16 := 58

def hash : UInt16 := 35

def dash : UInt16 := 45

def equal : UInt16 := 61

def newline : UInt16 := 10

def SPECIAL_VERSION_EXTENDED : UInt32 := 0xFFFFFFFD

def SPECIAL_VERSION_INVALID : UInt32 := 0xFFFFFFFE

def SPECIAL_VERSION_UNDEFINED : UInt32 := 0xFFFFFFFF

/-- `SNAP_NAME_LINKS_NAMESPACE`. -/
def linksNamespace : QString := ascii "links"

def isNameChar (c : UInt16) : Bool :=
  isDigit c || (65 ≤ c && c ≤ 90) || (97 ≤ c && c ≤ 122) || c == 95

/-- The test made of each character that is not the start of a namespace operator. -/
def verifyChar (c : UInt16) : Except InvalidName Unit :=
  if isNameChar c then .ok ()
  else if c = colon then .error .colon
  else .error (.character c)

/-- The loop of `link_info::verify_name()` with the word before the current character, whether
a namespace operator was found and whether this is the first character. -/
def verifyNameFrom (hasNamespace : Bool) (ns : QString) (first : Bool) :
    QString → Except InvalidName Unit
  | [] =>
      if hasNamespace = false then .error .noNamespace
      else if ns = linksNamespace then .error .endsWithLinks
      else .ok ()
  | c :: rest =>
      if c = colon ∧ first = false then
        if ns = linksNamespace then .error .linksNamespace
        else
          match rest with
          | [] => .error .endsWithColon
          | d :: rest =>
              if d ≠ colon then .error .namespaceOperator
              else
                match rest with
                | [] => .error .endsWithOperator
                | e :: rest =>
                    match verifyChar e with
                    | .error what => .error what
                    | .ok _ => verifyNameFrom true [e] false rest
      else
        match verifyChar c with
        | .error what => .error what
        | .ok _ => verifyNameFrom hasNamespace (ns ++ [c]) false rest

def verifyName (vname : QString) : Except InvalidName Unit := verifyNameFrom false [] true vname

/-- `link_info::is_defined()`. The texts below are only asked for when this holds; they throw
otherwise. -/
def isDefined (i : LinkInfo) : Bool :=
  i.name ≠ [] && i.key ≠ [] && i.branch ≠ SPECIAL_VERSION_INVALID &&
    i.branch ≠ SPECIAL_VERSION_UNDEFINED && i.branch ≠ SPECIAL_VERSION_EXTENDED

def rowKey (i : LinkInfo) : QString :=
  arg (arg (ascii "%1#%2") i.key) (decimal i.branch.toNat)

def keyWithBranch (i : LinkInfo) : QString :=
  arg (arg (ascii "%1#%2") i.key) (decimal i.branch.toNat)

def linkKey (i : LinkInfo) : QString :=
  arg (arg (arg (ascii "%1#%2/%3") i.key) (decimal i.branch.toNat)) i.name

/-- `link_info::cell_name(dst)`. -/
def cellName (i dst : LinkInfo) : QString :=
  linksNamespace ++ [colon, colon] ++ i.name ++ hash :: decimal dst.branch.toNat

/-- `link_info::cell_name(dst, unique_number)`. -/
def cellNameNumber (i dst : LinkInfo) (uniqueNumber : QString) : QString :=
  linksNamespace ++ [colon, colon] ++ i.name ++ dash :: uniqueNumber ++
    hash :: decimal dst.branch.toNat

/-- `link_info::cell_predicate()`: the cells of a unique name for any branch. -/
def cellPredicate (i : LinkInfo) (column : QString) : Bool :=
  (linksNamespace ++ [colon, colon] ++ i.name ++ [hash]).isPrefixOf column

def data (i : LinkInfo) : QString :=
  arg (arg (arg (arg (ascii "k=%1\nn=%2\nb=%3\nu=%4") i.key) i.name) (decimal i.branch.toNat))
    (ascii (if i.unique then "1" else "*"))

/-- `QString::toULong()` in base 10. -/
def toULong (s : QString) : Option ℕ :=
  (toSigned (trimmed s)).bind (fun n => if 0 ≤ n ∧ n < 2 ^ 64 then some n.toNat else none)

def fromData (dbData : QString) : Except LinksException LinkInfo :=
  match dbData.splitOn newline with
  | [keyData, nameData, branchData, uniqueData] =>
      match keyData.splitOn equal, nameData.splitOn equal, branchData.splitOn equal,
        uniqueData.splitOn equal with
      | [k, key], [n, name], [b, branch], [u, unique] =>
          if k ≠ ascii "k" ∨ n ≠ ascii "n" ∨ b ≠ ascii "b" ∨ u ≠ ascii "u" then
            .error .notVariables
          else if unique ≠ ascii "1" ∧ unique ≠ ascii "*" then .error .notUnique
          else
            match toULong branch with
            | none => .error .notBranch
            | some number =>
                match verifyName name with
                | .error what => .error (.invalidName what)
                | .ok _ =>
                    .ok { unique := unique = ascii "1", name, key, branch := number.toUInt32 }
      | _, _, _, _ => .error .notVariables
  | _ => .error .notFourLines

/-- A name that was given to a `link_info`. -/
def Verified (name : QString) : Prop := verifyName name = .ok ()

instance (name : QString) : Decidable (Verified name) := by
  unfold Verified
  infer_instance

theorem isNameChar_of_verifyChar {c : UInt16} (h : verifyChar c = .ok ()) :
    isNameChar c = true := by
  unfold verifyChar at h
  split_ifs at h with hc
  exact hc

/-- A verified name has letters, digits, underscores and colons only. -/
theorem mem_of_verifyNameFrom {hasNamespace : Bool} {ns name : QString} {first : Bool}
    (h : verifyNameFrom hasNamespace ns first name = .ok ()) :
    ∀ c ∈ name, isNameChar c = true ∨ c = colon := by
  fun_induction verifyNameFrom hasNamespace ns first name with
  | case9 hasNamespace ns first c hc hns d hd e rest _ he ih =>
    have hrest := ih h
    simp only [List.forall_mem_cons]
    exact ⟨Or.inr hc.1, Or.inr (not_not.mp hd), Or.inl (isNameChar_of_verifyChar he), hrest⟩
  | case11 hasNamespace ns first c rest hc _ hok ih =>
    exact List.forall_mem_cons.mpr ⟨Or.inl (isNameChar_of_verifyChar hok), ih h⟩
  | _ => simp_all

theorem Verified.notMem {name : QString} (h : Verified name) {c : UInt16}
    (hc : isNameChar c = false) (hcolon : c ≠ colon) : c ∉ name := by
  intro hmem
  rcases mem_of_verifyNameFrom h c hmem with hchar | hchar
  · rw [hchar] at hc
    cases hc
  · exact hcolon hchar

section Texts

variable {s d s' d' : LinkInfo} {number : QString}

theorem notMem_decimal {c : UInt16} (hc : isDigit c = false) (n : ℕ) : c ∉ decimal n := by
  intro hmem
  rw [isDigit_of_mem_decimal n c hmem] at hc
  cases hc

theorem branch_of_decimal {b b' : UInt32} (h : decimal b.toNat = decimal b'.toNat) : b = b' :=
  UInt32.toNat_inj.mp (decimal_injective h)

theorem percent_notMem_decimal (n : ℕ) : percent ∉ decimal n := notMem_decimal rfl n

theorem rowKey_text (h : Unmarked 2 s.key) :
    s.rowKey = s.key ++ hash :: decimal s.branch.toNat := by
  have htext : ascii "%1#%2" = [] ++ percent :: '1'.toNat.toUInt16 :: [hash, percent, 50] := by
    decide
  have hback : [hash, percent, 50] = [hash] ++ percent :: 50 :: [] := rfl
  have hfront : Unmarked 2 (s.key ++ [hash]) :=
    h.append (Unmarked.of_plain (by decide)) (Apart.cons (by decide) (by decide))
  rw [rowKey, htext, arg_digit _ _ _ (by decide : _ = some 1) (by decide) (by decide)
    (Apart.cons (by decide) (by decide)) (Unmarked.of_plain (by decide)) (by decide),
    List.nil_append, hback, ← List.append_assoc, arg_digit _ _ _ (by decide : _ = some 2)
    (by decide) (by decide) Apart.nil hfront (by decide)]
  simp

theorem rowKey_inj (hs : Unmarked 2 s.key) (hs' : Unmarked 2 s'.key) (h : s.rowKey = s'.rowKey) :
    s.key = s'.key ∧ s.branch = s'.branch := by
  rw [rowKey_text hs, rowKey_text hs'] at h
  obtain ⟨hkey, hbranch⟩ :=
    Pieces.last_cut_inj (notMem_decimal rfl _) (notMem_decimal rfl _) h
  exact ⟨hkey, branch_of_decimal hbranch⟩

theorem linkKey_text (h : Unmarked 3 s.key) :
    s.linkKey = s.rowKey ++ slash :: s.name := by
  have htext : ascii "%1#%2/%3" =
      [] ++ percent :: 49 :: [hash, percent, 50, slash, percent, 51] := by decide
  have hback : [hash, percent, 50, slash, percent, 51] =
      [hash] ++ percent :: 50 :: [slash, percent, 51] := rfl
  have hlast : [slash, percent, 51] = [slash] ++ percent :: 51 :: [] := rfl
  have hkey : Unmarked 3 (s.key ++ [hash]) :=
    h.append (Unmarked.of_plain (by decide)) (Apart.cons (by decide) (by decide))
  have hrow : Unmarked 3 (s.key ++ [hash] ++ decimal s.branch.toNat ++ [slash]) := by
    rw [List.append_assoc, List.append_assoc]
    refine h.append (Unmarked.of_plain ?_) (Apart.cons (by decide) (by decide))
    simp only [List.mem_append, List.mem_singleton, not_or]
    exact ⟨by decide, percent_notMem_decimal _, by decide⟩
  rw [linkKey, htext, arg_digit _ _ _ (by decide : _ = some 1) (by decide) (by decide)
    (Apart.cons (by decide) (by decide)) (Unmarked.of_plain (by decide)) (by decide),
    List.nil_append, hback, ← List.append_assoc, arg_digit _ _ _ (by decide : _ = some 2)
    (by decide) (by decide) (Apart.cons (by decide) (by decide)) (hkey.mono (by decide))
    (by decide), hlast, ← List.append_assoc, arg_digit _ _ _ (by decide : _ = some 3) (by decide)
    (by decide) Apart.nil hrow (by decide), rowKey_text (h.mono (by decide))]
  simp

theorem linkKey_inj (hkey : Unmarked 3 s.key) (hkey' : Unmarked 3 s'.key)
    (hs : Verified s.name) (hs' : Verified s'.name) (h : s.linkKey = s'.linkKey) :
    s.rowKey = s'.rowKey ∧ s.name = s'.name := by
  rw [linkKey_text hkey, linkKey_text hkey'] at h
  exact Pieces.last_cut_inj (hs.notMem rfl (by decide)) (hs'.notMem rfl (by decide)) h

theorem cellName_inj (h : s.cellName d = s'.cellName d') :
    s.name = s'.name ∧ d.branch = d'.branch := by
  obtain ⟨hname, hbranch⟩ :=
    Pieces.last_cut_inj (notMem_decimal rfl _) (notMem_decimal rfl _) h
  exact ⟨List.append_cancel_left hname, branch_of_decimal hbranch⟩

/-- The column of one of many links names the link and its number. -/
theorem cellNameNumber_inj {number' : QString} (hs : Verified s.name)
    (hs' : Verified s'.name)
    (h : s.cellNameNumber d number = s'.cellNameNumber d' number') :
    s.name = s'.name ∧ number = number' := by
  obtain ⟨hname, _⟩ := Pieces.last_cut_inj (notMem_decimal rfl _) (notMem_decimal rfl _) h
  rw [List.append_assoc, List.append_assoc (linksNamespace ++ [colon, colon])] at hname
  obtain ⟨hsame, _, hnumber⟩ := Pieces.first_cut_inj (hs.notMem rfl (by decide))
    (hs'.notMem rfl (by decide)) (List.append_cancel_left hname)
  exact ⟨hsame, hnumber⟩

theorem cellName_ne_cellNameNumber (hs : Verified s.name) :
    s.cellName d ≠ s'.cellNameNumber d' number := by
  intro h
  have hdash : dash ∈ s.cellName d := by
    rw [h]
    simp [cellNameNumber]
  have hname : dash ∉ s.name := hs.notMem rfl (by decide)
  have hbranch : dash ∉ decimal d.branch.toNat := notMem_decimal rfl _
  simp [cellName, hname, hbranch] at hdash
  revert hdash
  decide

theorem cellPredicate_cellName (i dst : LinkInfo) : i.cellPredicate (i.cellName dst) = true := by
  rw [cellPredicate, List.isPrefixOf_iff_prefix]
  exact ⟨decimal dst.branch.toNat, by simp [cellName]⟩

theorem cellPredicate_iff (i : LinkInfo) (name rest : QString) :
    i.cellPredicate (linksNamespace ++ [colon, colon] ++ name ++ rest) = true ↔
      ∃ tail, i.name ++ hash :: tail = name ++ rest := by
  rw [cellPredicate, List.isPrefixOf_iff_prefix]
  constructor
  · rintro ⟨tail, htail⟩
    have hfront : linksNamespace ++ [colon, colon] ++ (i.name ++ hash :: tail) =
        linksNamespace ++ [colon, colon] ++ (name ++ rest) := by simpa using htail
    exact ⟨tail, List.append_cancel_left hfront⟩
  · rintro ⟨tail, htail⟩
    exact ⟨tail, by simpa using htail⟩

theorem name_of_cellPredicate {i : LinkInfo} (hi : Verified i.name) (hs : Verified s.name)
    (h : i.cellPredicate (s.cellName d) = true) : i.name = s.name := by
  obtain ⟨tail, htail⟩ := (cellPredicate_iff i _ _).mp h
  exact (Pieces.first_cut_inj (hi.notMem rfl (by decide)) (hs.notMem rfl (by decide)) htail).1

theorem not_cellPredicate_cellNameNumber {i : LinkInfo} (hi : Verified i.name)
    (hs : Verified s.name) : i.cellPredicate (s.cellNameNumber d number) = false := by
  rw [Bool.eq_false_iff]
  intro h
  rw [cellNameNumber, List.append_assoc, List.append_assoc] at h
  obtain ⟨tail, htail⟩ := (cellPredicate_iff i _ _).mp h
  obtain ⟨_, hsep, _⟩ := Pieces.first_cut_inj (hi.notMem rfl (by decide))
    (hs.notMem rfl (by decide)) htail
  exact absurd hsep (by decide)

end Texts

section Data

theorem toULong_decimal (b : UInt32) : toULong (decimal b.toNat) = some b.toNat := by
  have hnumber : decimal b.toNat = number (b.toNat : ℤ) := rfl
  have hlt : b.toNat < 2 ^ 32 := b.toNat_lt
  rw [toULong, hnumber, trimmed_number, toSigned_number, Option.bind_some, if_pos (by omega)]
  rfl

def laterLines (i : LinkInfo) : List QString :=
  [ascii "n" ++ equal :: i.name, ascii "b" ++ equal :: decimal i.branch.toNat,
    ascii "u" ++ equal :: ascii (if i.unique then "1" else "*")]

variable {i : LinkInfo}

theorem notMem_flag {c : UInt16} (hc : c = newline ∨ c = equal) :
    c ∉ ascii (if i.unique then "1" else "*") := by
  rcases hc with rfl | rfl <;> cases i.unique <;> decide

/-- The lines of the text of the data that still have a marker once the key was written. -/
def keyLine (key tail : QString) : QString := ascii "k=" ++ key ++ newline :: tail

theorem unmarked_keyLine {n : ℕ} {key tail : QString} (hkey : Unmarked n key)
    (htail : percent ∉ tail) : Unmarked n (keyLine key tail) := by
  rw [keyLine, List.append_assoc]
  refine Unmarked.plain_append (by decide) (hkey.append (Unmarked.of_plain ?_)
    (Apart.cons (by decide) (by decide)))
  exact List.not_mem_cons_of_ne_of_not_mem (by decide) htail

theorem arg_key (key : QString) : arg (ascii "k=%1\nn=%2\nb=%3\nu=%4") key =
    keyLine key (ascii "n=" ++ percent :: 50 :: newline :: (ascii "b=" ++ percent :: 51 ::
      newline :: (ascii "u=" ++ percent :: 52 :: []))) := by
  have htext : ascii "k=%1\nn=%2\nb=%3\nu=%4" = ascii "k=" ++ percent :: 49 ::
      newline :: (ascii "n=" ++ percent :: 50 :: newline :: (ascii "b=" ++ percent :: 51 ::
        newline :: (ascii "u=" ++ percent :: 52 :: []))) := by decide
  rw [htext]
  exact arg_digit _ _ _ (by decide : _ = some 1) (by decide) (by decide)
    (Apart.cons (by decide) (by decide)) (by decide) (by decide)

/-- A value is written at its marker when those of the key come later. -/
theorem arg_keyLine {n : ℕ} {c : UInt16} {key plain back : QString} (a : QString)
    (hkey : Unmarked n key) (hplain : percent ∉ plain) (hdigit : PlaceMarkers.digitValue c = some n)
    (hL : c ≠ letterL) (hc : c ≠ percent) (happart : Apart back) (hback : Unmarked n back) :
    arg (keyLine key (plain ++ percent :: c :: back)) a = keyLine key (plain ++ a ++ back) := by
  have hstep := arg_digit (keyLine key plain) a back hdigit hL hc happart
    (unmarked_keyLine hkey hplain) hback
  simpa [keyLine] using hstep

section Steps

variable {key name : QString}

theorem arg_name (hkey : Unmarked 2 key) (name : QString) : arg (keyLine key (ascii "n=" ++
    percent :: 50 :: newline :: (ascii "b=" ++ percent :: 51 :: newline ::
      (ascii "u=" ++ percent :: 52 :: [])))) name =
    keyLine key (ascii "n=" ++ name ++ newline :: ascii "b=" ++ percent :: 51 :: newline ::
      (ascii "u=" ++ percent :: 52 :: [])) := by
  rw [arg_keyLine name hkey (by decide) (by decide) (by decide) (by decide)
    (Apart.cons (by decide) (by decide)) (by decide)]
  simp

theorem arg_branch (hkey : Unmarked 3 key) (hname : percent ∉ name) (branch : QString) :
    arg (keyLine key (ascii "n=" ++ name ++ newline :: ascii "b=" ++ percent :: 51 :: newline ::
      (ascii "u=" ++ percent :: 52 :: []))) branch =
    keyLine key (ascii "n=" ++ name ++ newline :: ascii "b=" ++ branch ++ newline ::
      ascii "u=" ++ percent :: 52 :: []) := by
  have hplain : percent ∉ ascii "n=" ++ name ++ newline :: ascii "b=" := by
    simp only [List.mem_append, not_or]
    exact ⟨⟨by decide, hname⟩, by decide⟩
  rw [arg_keyLine branch hkey hplain (by decide) (by decide) (by decide)
    (Apart.cons (by decide) (by decide)) (by decide)]
  simp

theorem arg_unique (hkey : Unmarked 4 key) (hname : percent ∉ name) (n : ℕ) (flag : QString) :
    arg (keyLine key (ascii "n=" ++ name ++ newline :: ascii "b=" ++ decimal n ++ newline ::
      ascii "u=" ++ percent :: 52 :: [])) flag =
    keyLine key (ascii "n=" ++ name ++ newline :: ascii "b=" ++ decimal n ++ newline ::
      ascii "u=" ++ flag) := by
  have hplain : percent ∉ ascii "n=" ++ name ++ newline :: ascii "b=" ++ decimal n ++
      newline :: ascii "u=" := by
    simp only [List.mem_append, not_or]
    exact ⟨⟨⟨⟨by decide, hname⟩, by decide⟩, percent_notMem_decimal n⟩, by decide⟩
  rw [arg_keyLine flag hkey hplain (by decide) (by decide) (by decide) Apart.nil (by decide),
    List.append_nil]

end Steps

/-- Where no marker of the key comes before those of the text, the first line has the key. -/
theorem data_text (hkey : Unmarked 4 i.key) (hname : percent ∉ i.name) :
    i.data = (ascii "k" ++ equal :: i.key) ++ newline ::
      [newline].intercalate (laterLines i) := by
  have hletters : ascii "k=" = ascii "k" ++ [equal] ∧ ascii "n=" = ascii "n" ++ [equal] ∧
      ascii "b=" = ascii "b" ++ [equal] ∧ ascii "u=" = ascii "u" ++ [equal] := by decide
  obtain ⟨hk, hn, hb, hu⟩ := hletters
  rw [data, arg_key, arg_name (hkey.mono (by decide)), arg_branch (hkey.mono (by decide)) hname,
    arg_unique hkey hname, keyLine, hk, hn, hb, hu]
  simp [laterLines, List.intercalate]

theorem splitOn_data (hkey : Unmarked 4 i.key) (hi : Verified i.name) :
    i.data.splitOn newline = (ascii "k" ++ equal :: i.key).splitOn newline ++ laterLines i := by
  rw [data_text hkey (hi.notMem rfl (by decide)), List.splitOn_append_cons_self,
    List.splitOn_intercalate newline _ (by simp [laterLines])]
  intro l hl
  simp only [laterLines, List.mem_cons, List.not_mem_nil, or_false] at hl
  rcases hl with rfl | rfl | rfl
  · simp only [List.mem_append, List.mem_cons, not_or]
    exact ⟨by decide, by decide, hi.notMem rfl (by decide)⟩
  · simp only [List.mem_append, List.mem_cons, not_or]
    exact ⟨by decide, by decide, notMem_decimal rfl _⟩
  · simp only [List.mem_append, List.mem_cons, not_or]
    exact ⟨by decide, by decide, notMem_flag (Or.inl rfl)⟩

theorem splitOn_variable {letter value : QString} (hletter : equal ∉ letter)
    (hvalue : equal ∉ value) : (letter ++ equal :: value).splitOn equal = [letter, value] := by
  rw [List.splitOn_append_cons_self_of_not_mem hletter, List.splitOn_eq_singleton hvalue]

theorem fromData_data (hkey : Unmarked 4 i.key) (hi : Verified i.name)
    (hline : newline ∉ i.key) (hequal : equal ∉ i.key) : fromData i.data = .ok i := by
  have hk := splitOn_variable (by decide : equal ∉ ascii "k") hequal
  have hn := splitOn_variable (by decide : equal ∉ ascii "n") (hi.notMem rfl (by decide))
  have hb := splitOn_variable (by decide : equal ∉ ascii "b")
    (notMem_decimal (by decide) i.branch.toNat)
  have hu := splitOn_variable (by decide : equal ∉ ascii "u") (notMem_flag (i := i) (Or.inr rfl))
  have hfirst : newline ∉ ascii "k" ++ equal :: i.key := by
    simp only [List.mem_append, List.mem_cons, not_or]
    exact ⟨by decide, by decide, hline⟩
  have hverified : verifyName i.name = .ok () := hi
  unfold fromData
  simp only [splitOn_data hkey hi, List.splitOn_eq_singleton hfirst, laterLines,
    List.singleton_append, hk, hn, hb, hu, toULong_decimal, hverified]
  obtain ⟨unique, name, key, branch⟩ := i
  cases unique <;> simp [ascii]

theorem eq_of_fromData {j : LinkInfo} (hkey : Unmarked 4 i.key) (hi : Verified i.name)
    (h : fromData i.data = .ok j) : j = i := by
  have hline : newline ∉ i.key := by
    intro hmem
    have hlength := congrArg List.length (splitOn_data hkey hi)
    rw [List.length_append, Pieces.length_splitOn newline (ascii "k" ++ equal :: i.key)] at hlength
    have hcount : 0 < (ascii "k" ++ equal :: i.key).count newline := by
      simp [hmem]
    unfold fromData at h
    split at h
    · rename_i hsplit
      rw [hsplit] at hlength
      simp only [laterLines, List.length_cons, List.length_nil] at hlength
      omega
    · cases h
  have hequal : equal ∉ i.key := by
    intro hmem
    have hfirst : newline ∉ ascii "k" ++ equal :: i.key := by
      simp only [List.mem_append, List.mem_cons, not_or]
      exact ⟨by decide, by decide, hline⟩
    have hlength := Pieces.length_splitOn equal (ascii "k" ++ equal :: i.key)
    have hcount : 1 < (ascii "k" ++ equal :: i.key).count equal := by
      have hkey : 0 < i.key.count equal := List.count_pos_iff.mpr hmem
      rw [List.count_append, List.count_cons_self]
      omega
    unfold fromData at h
    simp only [splitOn_data hkey hi, List.splitOn_eq_singleton hfirst, laterLines,
      List.singleton_append] at h
    split at h
    · rename_i hsplit _ _ _
      rw [hsplit] at hlength
      simp only [List.length_cons, List.length_nil] at hlength
      omega
    · cases h
  rw [fromData_data hkey hi hline hequal] at h
  exact (Except.ok.inj h).symm

/-- The data names one end. -/
theorem data_inj {j : LinkInfo} (hkey : Unmarked 4 i.key) (hkey' : Unmarked 4 j.key)
    (hi : Verified i.name) (hj : Verified j.name) (h : i.data = j.data) : i = j := by
  have hsplit : (ascii "k" ++ equal :: i.key).splitOn newline ++ laterLines i =
      (ascii "k" ++ equal :: j.key).splitOn newline ++ laterLines j := by
    rw [← splitOn_data hkey hi, ← splitOn_data hkey' hj, h]
  obtain ⟨hfirst, hlater⟩ := List.append_inj' hsplit rfl
  have hkey : ascii "k" ++ equal :: i.key = ascii "k" ++ equal :: j.key := by
    have hjoin := congrArg ([newline].intercalate ·) hfirst
    simpa only [List.intercalate_splitOn] using hjoin
  simp only [laterLines, List.cons.injEq, List.append_cancel_left_eq, and_true, true_and]
    at hkey hlater
  obtain ⟨hname, hbranch, hflag⟩ := hlater
  have hunique : i.unique = j.unique := by
    revert hflag
    cases i.unique <;> cases j.unique <;> simp [ascii]
  have hbranch := branch_of_decimal hbranch
  cases i
  cases j
  simp_all

end Data

end LinkInfo
end SnapCpp
