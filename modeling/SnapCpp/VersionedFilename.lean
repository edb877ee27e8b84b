import SnapCpp.VersionCompare

/-!
Filenames with a version: a name, a version and a browser in front of an extension. An object is
valid as long as it has no error; the functions that change it leave an error behind when they
fail, and not all of them take it away when they succeed.
-/
namespace SnapCpp.SnapVersion

open QString QNumber

/-- `compare_t`. -/
inductive Comparison where
  | invalid
  | smaller
  | equal
  | larger
deriving DecidableEq, Repr

def Comparison.value : Comparison → ℤ
  | invalid => -2
  | smaller => -1
  | equal => 0
  | larger => 1

def Comparison.swap : Comparison → Comparison
  | invalid => invalid
  | smaller => larger
  | equal => equal
  | larger => smaller

inductive FilenameError where
  | extension
  | underscore
  | browser
  | part (e : Error)
deriving DecidableEq, Repr

def underscore : UInt16 := 95

/-- A `name`. -/
structure NameObject where
  fName : QString := []
  fNamespace : QString := []
  fError : Option Error := none
deriving DecidableEq, Repr

/-- A `version` whose operator is never set. -/
structure VersionObject where
  fVersion : List UInt32 := []
  fError : Option Error := none
deriving DecidableEq, Repr

namespace NameObject

def clear (o : NameObject) : NameObject := { o with fName := [], fError := none }

def setName (o : NameObject) (nameString : QString) : NameObject :=
  match validateName nameString with
  | .error e => { o with fError := some e }
  | .ok n => ⟨n.name, n.nameSpace, none⟩

def isValid (o : NameObject) : Bool := o.fError.isNone

def compare (o rhs : NameObject) : Comparison :=
  if o.isValid = false ∨ rhs.isValid = false then .invalid
  else if o.fName = ascii "any" ∨ rhs.fName = ascii "any" then .equal
  else if o.fName < rhs.fName then .smaller
  else if rhs.fName < o.fName then .larger
  else .equal

end NameObject

namespace VersionObject

def setVersionString (o : VersionObject) (versionString : QString) : VersionObject :=
  match validateVersion versionString with
  | .error e => { o with fError := some e }
  | .ok numbers => ⟨canonicalize numbers, none⟩

def isValid (o : VersionObject) : Bool := o.fError.isNone

def getVersionString (o : VersionObject) : QString := versionString ⟨o.fVersion, .unordered⟩

def compare (o rhs : VersionObject) : Comparison :=
  if o.isValid = false ∨ rhs.isValid = false then .invalid
  else
    match SnapVersion.compare o.fVersion rhs.fVersion with
    | .lt => .smaller
    | .gt => .larger
    | .eq => .equal

end VersionObject

/-- A `versioned_filename`. -/
structure VersionedFilename where
  fExtension : QString
  fError : Option FilenameError := none
  fName : NameObject := {}
  fVersion : VersionObject := {}
  fBrowser : NameObject := {}
deriving DecidableEq, Repr

/-- `QString::indexOf(c, from)`, or the length where `c` is not found. -/
def indexFrom (s : QString) (c : UInt16) (from_ : ℕ) : ℕ := from_ + indexOf (s.drop from_) c

/-- What follows `lastIndexOf('/')`. -/
def basenamePos (s : QString) : ℕ := s.length - (s.reverse.takeWhile (· ≠ slash)).length

/-- The name, the version and the browser of `set_filename()`; without one, the browser is
empty. -/
def splitFilename (extension filename : QString) :
    Except FilenameError (QString × QString × QString) :=
  if extension.isSuffixOf filename = false then .error .extension
  else
    let maxLength := filename.length - extension.length
    let start := basenamePos filename
    let p1 := indexFrom filename underscore start
    if maxLength < p1 then .error .underscore
    else
      let found := indexFrom filename underscore (p1 + 1)
      let p2 := if maxLength < found then maxLength else found
      if found ≤ maxLength ∧ maxLength ≤ found + 1 then .error .browser
      else
        .ok (mid filename start p1, mid filename (p1 + 1) p2,
          if p2 < maxLength then mid filename (p2 + 1) maxLength else [])

namespace VersionedFilename

def new (extension : QString) : Option VersionedFilename :=
  match extension with
  | [] => none
  | c :: rest => some { fExtension := if c ≠ period then period :: c :: rest else c :: rest }

def setFilename (o : VersionedFilename) (filename : QString) : VersionedFilename × Bool :=
  match splitFilename o.fExtension filename with
  | .error e => ({ o with fError := some e }, false)
  | .ok (name, version, browser) =>
      match validateName name with
      | .error e => ({ o with fError := some (.part e) }, false)
      | .ok _ =>
          match validateVersion version with
          | .error e => ({ o with fError := some (.part e) }, false)
          | .ok _ =>
              match if browser = [] then .ok () else validateBasicName browser with
              | .error e => ({ o with fError := some (.part e) }, false)
              | .ok _ =>
                  ({ o with
                      fError := none
                      fName := o.fName.setName name
                      fVersion := o.fVersion.setVersionString version
                      fBrowser :=
                        if browser = [] then o.fBrowser.clear else o.fBrowser.setName browser },
                    true)

def setName (o : VersionedFilename) (name : QString) : VersionedFilename × Bool :=
  match validateName name with
  | .error e => ({ o with fError := some (.part e) }, false)
  | .ok _ => ({ o with fError := none, fName := o.fName.setName name }, true)

/-- `versioned_filename::set_version()`. A version that is accepted leaves the error there is. -/
def setVersion (o : VersionedFilename) (versionString : QString) : VersionedFilename × Bool :=
  match validateVersion versionString with
  | .error e => ({ o with fError := some (.part e) }, false)
  | .ok _ => ({ o with fVersion := o.fVersion.setVersionString versionString }, true)

def isValid (o : VersionedFilename) : Bool :=
  o.fError.isNone && o.fName.isValid && o.fVersion.isValid && o.fBrowser.isValid

def getFilename (o : VersionedFilename) (extension : Bool) : QString :=
  if o.isValid = false then []
  else
    o.fName.fName ++ underscore :: o.fVersion.getVersionString ++
      (if o.fBrowser.fName = [] then [] else underscore :: o.fBrowser.fName) ++
      (if extension then o.fExtension else [])

/-- `versioned_filename::compare()`, which does not look at the error of `rhs`. -/
def compare (o rhs : VersionedFilename) : Comparison :=
  if o.isValid = false then .invalid
  else
    match o.fName.compare rhs.fName with
    | .equal =>
        match o.fBrowser.compare rhs.fBrowser with
        | .equal => o.fVersion.compare rhs.fVersion
        | c => c
    | c => c

section Operators

variable (o rhs : VersionedFilename)

/-- `operator ==`. -/
def eq : Bool := o.compare rhs = .equal

/-- `operator !=`. -/
def ne : Bool := o.compare rhs = .smaller || o.compare rhs = .larger

/-- `operator <`. -/
def lt : Bool := o.compare rhs = .smaller

/-- `operator <=`. -/
def le : Bool := o.compare rhs = .smaller || o.compare rhs = .equal

/-- `operator >`. -/
def gt : Bool := Comparison.equal.value < (o.compare rhs).value

/-- `operator >=`. -/
def ge : Bool := Comparison.equal.value ≤ (o.compare rhs).value

end Operators

inductive Call where
  | setFilename (filename : QString)
  | setName (name : QString)
  | setVersion (versionString : QString)
deriving DecidableEq, Repr

def call (o : VersionedFilename) : Call → VersionedFilename × Bool
  | .setFilename filename => o.setFilename filename
  | .setName name => o.setName name
  | .setVersion versionString => o.setVersion versionString

def after (o : VersionedFilename) (calls : List Call) : VersionedFilename :=
  calls.foldl (fun o c => (o.call c).1) o

structure PartsValid (o : VersionedFilename) : Prop where
  name : o.fName.fError = none
  version : o.fVersion.fError = none
  browser : o.fBrowser.fError = none

section Steps

variable {o : VersionedFilename} {c : Call}

theorem PartsValid.isValid (h : o.PartsValid) : o.isValid = o.fError.isNone := by
  simp [VersionedFilename.isValid, NameObject.isValid, VersionObject.isValid, h.name, h.version,
    h.browser]

theorem setName_of_valid {n : NameObject} {nameString : QString} {name : Name}
    (h : validateName nameString = .ok name) :
    n.setName nameString = ⟨name.name, name.nameSpace, none⟩ := by
  rw [NameObject.setName, h]

theorem setVersionString_of_valid {v : VersionObject} {s : QString} {numbers : List UInt32}
    (h : validateVersion s = .ok numbers) : v.setVersionString s = ⟨numbers, none⟩ := by
  simp only [VersionObject.setVersionString, h, (validateVersion_spec h).2.1]

theorem validateName_of_basic {name : QString} (h : IsBasic name) :
    validateName name = .ok ⟨[], name⟩ :=
  validateName_iff.mpr ⟨⟨Or.inl rfl, h⟩, (if_pos rfl).symm⟩

/-- What `set_filename()` takes from a filename. -/
structure Accepted (extension filename : QString) (name : Name) (numbers : List UInt32)
    (browser : QString) : Prop where
  split : ∃ nameText versionText,
    splitFilename extension filename = .ok (nameText, versionText, browser) ∧
      validateName nameText = .ok name ∧ validateVersion versionText = .ok numbers
  browser : browser = [] ∨ IsBasic browser

theorem setFilename_cases (o : VersionedFilename) (filename : QString) :
    (∃ e, o.setFilename filename = ({ o with fError := some e }, false) ∧
      ∀ name numbers browser, ¬ Accepted o.fExtension filename name numbers browser) ∨
    ∃ name numbers browser, Accepted o.fExtension filename name numbers browser ∧
      o.setFilename filename = ({ o with
        fError := none
        fName := ⟨name.name, name.nameSpace, none⟩
        fVersion := ⟨numbers, none⟩
        fBrowser := if browser = [] then o.fBrowser.clear else ⟨browser, [], none⟩ }, true) := by
  unfold setFilename
  cases hsplit : splitFilename o.fExtension filename with
  | error e =>
    refine Or.inl ⟨e, rfl, fun name numbers browser h => ?_⟩
    obtain ⟨_, _, hsame, _⟩ := h.split
    rw [hsplit] at hsame
    cases hsame
  | ok parts =>
    obtain ⟨nameText, versionText, browser⟩ := parts
    have hparts : ∀ name numbers browser', Accepted o.fExtension filename name numbers browser' →
        validateName nameText = .ok name ∧ validateVersion versionText = .ok numbers ∧
          (browser = [] ∨ IsBasic browser) := by
      intro name numbers browser' h
      obtain ⟨_, _, hsame, hname, hversion⟩ := h.split
      rw [hsplit] at hsame
      obtain ⟨rfl, hrest⟩ := Prod.mk.inj (Except.ok.inj hsame)
      obtain ⟨rfl, rfl⟩ := Prod.mk.inj hrest
      exact ⟨hname, hversion, h.browser⟩
    simp only
    cases hname : validateName nameText with
    | error e =>
      refine Or.inl ⟨.part e, rfl, fun name numbers browser' h => ?_⟩
      have hsame := (hparts name numbers browser' h).1
      rw [hname] at hsame
      cases hsame
    | ok name =>
      cases hversion : validateVersion versionText with
      | error e =>
        refine Or.inl ⟨.part e, rfl, fun name numbers browser' h => ?_⟩
        have hsame := (hparts name numbers browser' h).2.1
        rw [hversion] at hsame
        cases hsame
      | ok numbers =>
        by_cases hempty : browser = []
        · refine Or.inr ⟨name, numbers, browser, ⟨⟨nameText, versionText, hsplit, hname, hversion⟩,
            Or.inl hempty⟩, ?_⟩
          simp only [if_pos hempty, setName_of_valid hname, setVersionString_of_valid hversion]
        · cases hbrowser : validateBasicName browser with
          | error e =>
            refine Or.inl ⟨.part e, by simp only [if_neg hempty],
              fun name numbers browser' h => ?_⟩
            have hsame : validateBasicName browser = .ok () :=
              (hparts name numbers browser' h).2.2.resolve_left hempty
            rw [hbrowser] at hsame
            cases hsame
          | ok u =>
            refine Or.inr ⟨name, numbers, browser,
              ⟨⟨nameText, versionText, hsplit, hname, hversion⟩, Or.inr hbrowser⟩, ?_⟩
            simp only [if_neg hempty, setName_of_valid hname, setVersionString_of_valid hversion,
              setName_of_valid (validateName_of_basic hbrowser)]

theorem setName_cases (o : VersionedFilename) (name : QString) :
    (∃ e, validateName name = .error e ∧
      o.setName name = ({ o with fError := some (.part e) }, false)) ∨
    ∃ n, validateName name = .ok n ∧
      o.setName name = ({ o with
        fError := none
        fName := ⟨n.name, n.nameSpace, none⟩ }, true) := by
  unfold setName
  cases h : validateName name with
  | error e => exact Or.inl ⟨e, rfl, rfl⟩
  | ok n => exact Or.inr ⟨n, rfl, by simp only [setName_of_valid h]⟩

theorem setVersion_cases (o : VersionedFilename) (s : QString) :
    (∃ e, validateVersion s = .error e ∧
      o.setVersion s = ({ o with fError := some (.part e) }, false)) ∨
    ∃ numbers, validateVersion s = .ok numbers ∧
      o.setVersion s = ({ o with fVersion := ⟨numbers, none⟩ }, true) := by
  unfold setVersion
  cases h : validateVersion s with
  | error e => exact Or.inl ⟨e, rfl, rfl⟩
  | ok numbers => exact Or.inr ⟨numbers, rfl, by simp only [setVersionString_of_valid h]⟩

theorem PartsValid.call (h : o.PartsValid) (c : Call) :
    (o.call c).1.PartsValid ∧ (o.call c).1.fExtension = o.fExtension := by
  cases c with
  | setFilename filename =>
    show (o.setFilename filename).1.PartsValid ∧ _
    rcases setFilename_cases o filename with ⟨e, heq, _⟩ | ⟨name, numbers, browser, _, heq⟩
    · rw [VersionedFilename.call, heq]
      exact ⟨⟨h.name, h.version, h.browser⟩, rfl⟩
    · rw [VersionedFilename.call, heq]
      refine ⟨⟨rfl, rfl, ?_⟩, rfl⟩
      show (if browser = [] then o.fBrowser.clear else ⟨browser, [], none⟩).fError = none
      split_ifs
      · rfl
      · rfl
  | setName name =>
    show (o.setName name).1.PartsValid ∧ _
    rcases setName_cases o name with ⟨e, _, heq⟩ | ⟨n, _, heq⟩
    · rw [VersionedFilename.call, heq]
      exact ⟨⟨h.name, h.version, h.browser⟩, rfl⟩
    · rw [VersionedFilename.call, heq]
      exact ⟨⟨rfl, h.version, h.browser⟩, rfl⟩
  | setVersion s =>
    show (o.setVersion s).1.PartsValid ∧ _
    rcases setVersion_cases o s with ⟨e, _, heq⟩ | ⟨numbers, _, heq⟩
    · rw [VersionedFilename.call, heq]
      exact ⟨⟨h.name, h.version, h.browser⟩, rfl⟩
    · rw [VersionedFilename.call, heq]
      exact ⟨⟨h.name, rfl, h.browser⟩, rfl⟩

theorem PartsValid.after (h : o.PartsValid) (calls : List Call) :
    (o.after calls).PartsValid ∧ (o.after calls).fExtension = o.fExtension := by
  induction calls generalizing o with
  | nil => exact ⟨h, rfl⟩
  | cons c calls ih =>
    obtain ⟨hcall, hextension⟩ := h.call c
    obtain ⟨hafter, hrest⟩ := ih hcall
    exact ⟨hafter, hrest.trans hextension⟩

theorem partsValid_new {extension : QString} (h : new extension = some o) :
    o.PartsValid ∧ o.fError = none := by
  unfold new at h
  split at h
  · cases h
  · obtain rfl := Option.some.inj h
    exact ⟨⟨rfl, rfl, rfl⟩, rfl⟩

end Steps

section Comparing

theorem swap_of_name (n m : NameObject) : m.compare n = (n.compare m).swap := by
  have hvalid : m.isValid = false ∨ n.isValid = false ↔ n.isValid = false ∨ m.isValid = false :=
    or_comm
  have hany : m.fName = ascii "any" ∨ n.fName = ascii "any" ↔
      n.fName = ascii "any" ∨ m.fName = ascii "any" := or_comm
  simp only [NameObject.compare, hvalid, hany]
  split_ifs with hvalid hany hlt hgt hgt
  · rfl
  · rfl
  · exact absurd hlt (lt_asymm hgt)
  · rfl
  · rfl
  · rfl

theorem swap_of_version (v w : VersionObject) : w.compare v = (v.compare w).swap := by
  have hvalid : w.isValid = false ∨ v.isValid = false ↔ v.isValid = false ∨ w.isValid = false :=
    or_comm
  simp only [VersionObject.compare, hvalid, SnapVersion.compare_swap v.fVersion w.fVersion]
  split_ifs
  · rfl
  · cases SnapVersion.compare v.fVersion w.fVersion <;> rfl

variable {a b : VersionedFilename}

theorem compare_swap (ha : a.isValid = true) (hb : b.isValid = true) :
    b.compare a = (a.compare b).swap := by
  unfold compare
  rw [ha, hb, if_neg (by decide), if_neg (by decide), swap_of_name a.fName b.fName,
    swap_of_name a.fBrowser b.fBrowser, swap_of_version a.fVersion b.fVersion]
  cases a.fName.compare b.fName with
  | equal => cases a.fBrowser.compare b.fBrowser <;> rfl
  | _ => rfl

theorem compare_of_invalid (ha : a.isValid = false) : a.compare b = .invalid := if_pos ha

theorem NameObject.compare_ne_invalid {n m : NameObject} (hn : n.fError = none)
    (hm : m.fError = none) : n.compare m ≠ .invalid := by
  unfold NameObject.compare NameObject.isValid
  rw [hn, hm]
  split_ifs <;> simp_all

theorem VersionObject.compare_ne_invalid {v w : VersionObject} (hv : v.fError = none)
    (hw : w.fError = none) : v.compare w ≠ .invalid := by
  unfold VersionObject.compare VersionObject.isValid
  rw [hv, hw, if_neg (by decide)]
  cases SnapVersion.compare v.fVersion w.fVersion <;> decide

theorem compare_ne_invalid (ha : a.PartsValid) (hb : b.PartsValid) (hvalid : a.isValid = true) :
    a.compare b ≠ .invalid := by
  unfold compare
  rw [if_neg (by rw [hvalid]; decide)]
  have hname := NameObject.compare_ne_invalid ha.name hb.name
  have hbrowser := NameObject.compare_ne_invalid ha.browser hb.browser
  have hversion := VersionObject.compare_ne_invalid ha.version hb.version
  cases hn : a.fName.compare b.fName with
  | invalid => exact absurd hn hname
  | smaller | larger => exact Comparison.noConfusion
  | equal =>
    cases hw : a.fBrowser.compare b.fBrowser with
    | invalid => exact absurd hw hbrowser
    | smaller | larger => exact Comparison.noConfusion
    | equal => exact hversion

/-- The operators of two objects agree with those of the objects turned around, one of them at
most orders the two, and none does once one of the objects is not valid. -/
structure OperatorsAgree (a b : VersionedFilename) : Prop where
  eq_iff : a.eq b = b.eq a
  lt_iff : a.lt b = b.gt a
  le_iff : a.le b = b.ge a
  exclusive : a.fName.fName ≠ ascii "any" → b.fName.fName ≠ ascii "any" →
    ¬ (a.lt b = true ∧ a.eq b = true) ∧ ¬ (a.lt b = true ∧ a.gt b = true) ∧
      ¬ (a.eq b = true ∧ a.gt b = true)
  unordered : a.isValid = false ∨ b.isValid = false →
    a.eq b = false ∧ a.lt b = false ∧ a.le b = false ∧ a.gt b = false ∧ a.ge b = false

theorem operatorsAgree_of_compare (hswap : b.compare a = (a.compare b).swap)
    (hinvalid : a.isValid = false ∨ b.isValid = false → a.compare b = .invalid) :
    OperatorsAgree a b := by
  have hunordered : a.isValid = false ∨ b.isValid = false →
      a.eq b = false ∧ a.lt b = false ∧ a.le b = false ∧ a.gt b = false ∧ a.ge b = false := by
    intro h
    simp [eq, lt, le, gt, ge, hinvalid h, Comparison.value]
  refine ⟨?_, ?_, ?_, fun _ _ => ?_, hunordered⟩
  all_goals
    simp only [eq, lt, le, gt, ge, hswap]
    cases a.compare b <;> decide

/-- The operators of two objects agree if and only if both are valid or none is. -/
theorem operatorsAgree_iff {extension extension' : QString} (ha : new extension = some a)
    (hb : new extension' = some b) (calls calls' : List Call) :
    OperatorsAgree (a.after calls) (b.after calls') ∧
        OperatorsAgree (b.after calls') (a.after calls) ↔
      (a.after calls).isValid = (b.after calls').isValid := by
  have hparts := ((partsValid_new ha).1.after calls).1
  have hparts' := ((partsValid_new hb).1.after calls').1
  generalize a.after calls = x at *
  generalize b.after calls' = y at *
  constructor
  · rintro ⟨hxy, hyx⟩
    cases hx : x.isValid with
    | true =>
      cases hy : y.isValid with
      | true => rfl
      | false =>
        obtain ⟨heq, hlt, _, hgt, _⟩ := hxy.unordered (Or.inr hy)
        have hne := compare_ne_invalid hparts hparts' hx
        revert heq hlt hgt hne
        unfold eq lt gt
        cases x.compare y <;> decide
    | false =>
      cases hy : y.isValid with
      | false => rfl
      | true =>
        obtain ⟨heq, hlt, _, hgt, _⟩ := hyx.unordered (Or.inr hx)
        have hne := compare_ne_invalid hparts' hparts hy
        revert heq hlt hgt hne
        unfold eq lt gt
        cases y.compare x <;> decide
  · intro hsame
    cases hx : x.isValid with
    | true =>
      have hy : y.isValid = true := hsame.symm.trans hx
      have hnot : ∀ p : Prop, x.isValid = false ∨ y.isValid = false → p := by
        intro p h
        rw [hx, hy] at h
        simp at h
      exact ⟨operatorsAgree_of_compare (compare_swap hx hy) (hnot _),
        operatorsAgree_of_compare (compare_swap hy hx) fun h => hnot _ h.symm⟩
    | false =>
      have hy : y.isValid = false := hsame.symm.trans hx
      have hxy : x.compare y = .invalid := compare_of_invalid hx
      have hyx : y.compare x = .invalid := compare_of_invalid hy
      exact ⟨operatorsAgree_of_compare (by rw [hxy, hyx]; rfl) fun _ => hxy,
        operatorsAgree_of_compare (by rw [hxy, hyx]; rfl) fun _ => hyx⟩

def javascript : VersionedFilename := { fExtension := ascii ".js" }

theorem operatorsAgree_iff_editor :
    OperatorsAgree (javascript.after [.setFilename (ascii "editor_1.2.js")])
          (javascript.after [.setFilename (ascii "editor_1.10_ie.js")]) ∧
        OperatorsAgree (javascript.after [.setFilename (ascii "editor_1.10_ie.js")])
          (javascript.after [.setFilename (ascii "editor_1.2.js")]) ↔
      (javascript.after [.setFilename (ascii "editor_1.2.js")]).isValid =
        (javascript.after [.setFilename (ascii "editor_1.10_ie.js")]).isValid :=
  operatorsAgree_iff (by decide : new (ascii ".js") = some javascript)
    (by decide : new (ascii ".js") = some javascript) _ _

/-- An object that refused a name is still ordered by the name that it has. -/
theorem smaller_than_invalid : ¬ ∀ (extension extension' : QString) (a b : VersionedFilename),
    new extension = some a → new extension' = some b → ∀ calls calls' : List Call,
      OperatorsAgree (a.after calls) (b.after calls') := by
  intro h
  have hagree := h _ _ javascript javascript (by decide : new (ascii ".js") = some javascript)
    (by decide : new (ascii ".js") = some javascript) [.setFilename (ascii "core_1.2.js")]
    [.setFilename (ascii "editor_1.2.js"), .setName (ascii "!")]
  have hsmaller := (hagree.unordered (Or.inr (by decide))).2.1
  revert hsmaller
  decide

end Comparing

end VersionedFilename

end SnapCpp.SnapVersion
