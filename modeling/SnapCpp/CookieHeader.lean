import SnapCpp.CookieValue

/-!
Calls that put something into the header of a cookie. The name, the value, the dates and the flags
are never more than printable characters. A domain is stored before it is checked, a path is
accepted for the domain that the cookie has, and a comment is not checked at all. A run of calls
keeps the header in one piece if and only if it has no such call with an argument that it matters
for.
-/
namespace SnapCpp.HttpCookie

open QString

def isControl (c : UInt16) : Bool := c < 32 || (127 ≤ c && c ≤ 159)

def Clean (s : QString) : Prop := s.all (fun c => !isControl c) = true

instance (s : QString) : Decidable (Clean s) := inferInstanceAs (Decidable (_ = _))

def isPathCharacter (c : UInt16) : Bool := 32 ≤ c && c ≤ 126 && c != 44 && c != 59

@[simp] theorem clean_nil : Clean [] := rfl

@[simp] theorem clean_cons (c : UInt16) (s : QString) :
    Clean (c :: s) ↔ isControl c = false ∧ Clean s := by
  simp [Clean]

@[simp] theorem clean_append (s t : QString) : Clean (s ++ t) ↔ Clean s ∧ Clean t := by
  simp only [Clean, List.all_append, Bool.and_eq_true]

theorem clean_of_forall {s : QString} (h : ∀ c ∈ s, isControl c = false) : Clean s := by
  rw [Clean, List.all_eq_true]
  intro c hc
  rw [h c hc]
  rfl

theorem Clean.of_mem {s : QString} (h : Clean s) {c : UInt16} (hc : c ∈ s) :
    isControl c = false := by
  have := List.all_eq_true.mp h c hc
  simpa using this

theorem isControl_of_range {c : UInt16} (h : 32 ≤ c ∧ c ≤ 126) : isControl c = false := by
  simp only [isControl, Bool.or_eq_false_iff, Bool.and_eq_false_iff, decide_eq_false_iff_not,
    UInt16.lt_iff_toNat_lt, UInt16.le_iff_toNat_le, UInt16.reduceToNat] at h ⊢
  omega

section Parts

variable {D : Type} {dates : Dates D} {s name : QString}

theorem clean_token (h : ∀ c ∈ s, isToken c = true) : Clean s := by
  refine clean_of_forall fun c hc => isControl_of_range ?_
  have htoken := h c hc
  simp only [isToken, Bool.and_eq_true, decide_eq_true_eq, UInt16.lt_iff_toNat_lt,
    UInt16.le_iff_toNat_le, UInt16.reduceToNat] at htoken ⊢
  omega

theorem clean_domain (h : ∀ c ∈ s, isDomainCharacter c = true) : Clean s := by
  refine clean_of_forall fun c hc => isControl_of_range ?_
  have hdomain := h c hc
  simp only [isDomainCharacter, Bool.or_eq_true, Bool.and_eq_true, decide_eq_true_eq,
    beq_iff_eq, UInt16.le_iff_toNat_le, ← UInt16.toNat_inj, UInt16.reduceToNat] at hdomain ⊢
  omega

theorem clean_path (h : ∀ c ∈ s, isPathCharacter c = true) : Clean s := by
  refine clean_of_forall fun c hc => isControl_of_range ?_
  have hpath := h c hc
  simp only [isPathCharacter, Bool.and_eq_true, decide_eq_true_eq] at hpath
  exact ⟨hpath.1.1.1, hpath.1.1.2⟩

theorem clean_decimal (n : ℕ) : Clean (decimal n) := by
  refine clean_of_forall fun c hc => isControl_of_range ?_
  have hdigit := isDigit_of_mem_decimal n c hc
  simp only [isDigit, Bool.and_eq_true, decide_eq_true_eq, UInt16.le_iff_toNat_le,
    UInt16.reduceToNat] at hdigit ⊢
  omega

theorem clean_number (n : ℤ) : Clean (number n) := by
  rw [number]
  split_ifs
  · rw [clean_cons]
    exact ⟨by decide, clean_decimal _⟩
  · exact clean_decimal _

theorem clean_encodeValue (v : Bytes) : Clean (encodeValue v) := by
  refine clean_of_forall fun c hc => isControl_of_range ?_
  have hoctet := isCookieOctet_encodeValue v c hc
  simp only [isCookieOctet, Bool.or_eq_true, Bool.and_eq_true, decide_eq_true_eq, beq_iff_eq,
    UInt16.le_iff_toNat_le, ← UInt16.toNat_inj, UInt16.reduceToNat] at hoctet ⊢
  omega

theorem clean_expires (hdates : ∀ d, Clean (dates.toText d)) (now : Now D) (c : Cookie D) :
    Clean (expires dates now c) := by
  rw [expires]
  split
  · rw [clean_append, clean_append]
    refine ⟨⟨by decide, hdates _⟩, ?_⟩
    split_ifs
    · rw [clean_append]
      exact ⟨by decide, clean_number _⟩
    · exact clean_nil
  · exact clean_nil
  · decide

theorem clean_part {value : QString} (hname : Clean name) (hvalue : Clean value) :
    Clean (part name value) := by
  rw [part]
  split_ifs
  · exact clean_nil
  · exact (clean_append _ _).mpr ⟨hname, hvalue⟩

theorem clean_flag (hname : Clean name) (b : Bool) : Clean (flag name b) := by
  cases b
  · exact clean_nil
  · exact hname

theorem clean_quoted_iff (hname : Clean name) (comment : QString) :
    Clean (quoted name comment) ↔ Clean comment := by
  have hfilter : Clean (comment.filter fun c => c != 34) ↔ Clean comment := by
    refine ⟨fun h => clean_of_forall fun c hc => ?_, fun h => clean_of_forall fun c hc => ?_⟩
    · by_cases hquote : c = 34
      · rw [hquote]
        decide
      · exact h.of_mem (List.mem_filter.mpr ⟨hc, bne_iff_ne.mpr hquote⟩)
    · exact h.of_mem (List.mem_filter.mp hc).1
  rw [quoted]
  split_ifs with hcomment
  · rw [hcomment]
  · simp only [clean_append, clean_cons, hname, hfilter, clean_nil]
    have hquote : isControl 34 = false := by decide
    simp [hquote]

theorem clean_toHttpHeader_iff (hdates : ∀ d, Clean (dates.toText d)) (now : Now D) {c : Cookie D}
    (hdomain : ∀ x ∈ c.fDomain, isDomainCharacter x = true)
    (hpath : ∀ x ∈ c.fPath, isPathCharacter x = true) :
    Clean (toHttpHeader dates now c) ↔ Clean c.fComment ∧ Clean c.fCommentUrl := by
  have hfront : Clean (ascii "Set-Cookie: ") := by decide
  have hequal : Clean (ascii "=") := by decide
  have hdomainPart : Clean (part (ascii "; Domain=") c.fDomain) :=
    clean_part (by decide) (clean_domain hdomain)
  have hpathPart : Clean (part (ascii "; Path=") c.fPath) :=
    clean_part (by decide) (clean_path hpath)
  have hsecure : Clean (flag (ascii "; Secure") c.fSecure) := clean_flag (by decide) _
  have hhttpOnly : Clean (flag (ascii "; HttpOnly") c.fHttpOnly) := clean_flag (by decide) _
  simp only [toHttpHeader, attributes, clean_append, hfront, clean_token c.named, hequal,
    clean_encodeValue, clean_expires hdates, hdomainPart, hpathPart, hsecure, hhttpOnly, true_and]
  rw [clean_quoted_iff (by decide), clean_quoted_iff (by decide)]

end Parts

section Calls

variable {D : Type} {dates : Dates D} {c : Cookie D}

structure Safe (dates : Dates D) (c : Cookie D) : Prop where
  header : ∀ now, Clean (toHttpHeader dates now c)
  domain : ∀ x ∈ c.fDomain, isDomainCharacter x = true
  path : ∀ x ∈ c.fPath, isPathCharacter x = true

theorem safe_iff (hdates : ∀ d, Clean (dates.toText d)) (c : Cookie D) :
    Safe dates c ↔ (∀ x ∈ c.fDomain, isDomainCharacter x = true) ∧
      (∀ x ∈ c.fPath, isPathCharacter x = true) ∧ Clean c.fComment ∧ Clean c.fCommentUrl := by
  constructor
  · intro h
    let now : Now D := ⟨0, 0, dates.invalid⟩
    exact ⟨h.domain, h.path, (clean_toHttpHeader_iff hdates now h.domain h.path).mp
      (h.header now)⟩
  · rintro ⟨hdomain, hpath, hcomments⟩
    exact ⟨fun now => (clean_toHttpHeader_iff hdates now hdomain hpath).mpr hcomments, hdomain,
      hpath⟩

def Harmless (c : Cookie D) : Call D → Prop
  | .setDomain domain => (∀ x ∈ withoutPeriod domain, isDomainCharacter x = true) ∧
      (withoutPeriod domain = [] → c.fDomain = [])
  | .setPath path => c.fDomain.length < path.length ∨ ∀ x ∈ path, isPathCharacter x = true
  | .setComment comment => Clean comment
  | .setCommentUrl commentUrl => Clean commentUrl
  | _ => True

def Throws (r : Except Failure Unit × Cookie D) : Prop := ∃ message, r.1 = .error message

theorem accepted_iff {domain : QString} (h : ∀ x ∈ domain, isDomainCharacter x = true) (n : ℕ) :
    (∀ i < n, isAccepted (charAt domain i) = true) ↔ n ≤ domain.length := by
  constructor
  · intro haccepted
    by_contra hlong
    have hbehind := haccepted domain.length (by omega)
    rw [charAt, List.getElem?_eq_none le_rfl] at hbehind
    revert hbehind
    decide
  · intro hn i hi
    have hlt : i < domain.length := by omega
    have hdomain := h _ (List.getElem_mem hlt)
    rw [charAt, List.getElem?_eq_getElem hlt, Option.getD_some]
    generalize domain[i] = x at hdomain
    simp only [isDomainCharacter, isAccepted, Bool.or_eq_true, Bool.and_eq_true,
      decide_eq_true_eq, beq_iff_eq, Bool.not_eq_true', Bool.and_eq_false_iff,
      Bool.or_eq_false_iff, decide_eq_false_iff_not, UInt16.le_iff_toNat_le,
      UInt16.lt_iff_toNat_lt, ← UInt16.toNat_inj, UInt16.reduceToNat] at hdomain ⊢
    omega

theorem setDomain_safe_iff (hdates : ∀ d, Clean (dates.toText d)) (h : Safe dates c)
    (domain : QString) :
    Safe dates (setDomain domain c).2 ∧
        (Throws (setDomain domain c) → (setDomain domain c).2 = c) ↔
      Harmless c (.setDomain domain) := by
  obtain ⟨-, hpath, hcomments⟩ := (safe_iff hdates c).mp h
  have hstored : (setDomain domain c).2 = { c with fDomain := withoutPeriod domain } := by
    rw [setDomain]
    split_ifs <;> rfl
  rw [hstored, safe_iff hdates, Harmless]
  constructor
  · rintro ⟨⟨hdomain, -⟩, hthrows⟩
    refine ⟨hdomain, fun hnil => ?_⟩
    have hsame := hthrows ⟨_, by rw [setDomain, if_pos hnil]⟩
    rw [← hsame]
    exact hnil
  · rintro ⟨hdomain, hnil⟩
    refine ⟨⟨hdomain, hpath, hcomments⟩, ?_⟩
    rintro ⟨message, hmessage⟩
    rw [setDomain] at hmessage
    split_ifs at hmessage with hempty
    rw [hempty, ← hnil hempty]

theorem setPath_safe_iff (hdates : ∀ d, Clean (dates.toText d)) (h : Safe dates c)
    (path : QString) :
    Safe dates (setPath path c).2 ∧ (Throws (setPath path c) → (setPath path c).2 = c) ↔
      Harmless c (.setPath path) := by
  obtain ⟨-, -, hcomments⟩ := (safe_iff hdates c).mp h
  rw [setPath, Harmless]
  by_cases haccepted : ∀ i < path.length, isAccepted (charAt c.fDomain i) = true
  · rw [if_pos haccepted]
    have hlength := (accepted_iff h.domain path.length).mp haccepted
    constructor
    · rintro ⟨hsafe, -⟩
      exact Or.inr hsafe.path
    · rintro (hlong | hpath)
      · omega
      · refine ⟨(safe_iff hdates _).mpr ⟨h.domain, hpath, hcomments⟩, ?_⟩
        rintro ⟨message, hmessage⟩
        cases hmessage
  · rw [if_neg haccepted]
    refine iff_of_true ⟨h, fun _ => rfl⟩ (Or.inl ?_)
    rw [accepted_iff h.domain] at haccepted
    omega

theorem comment_safe_iff (hdates : ∀ d, Clean (dates.toText d)) (h : Safe dates c)
    {r : Except Failure Unit × Cookie D} (hr : r.1 = .ok ())
    (hdomain : r.2.fDomain = c.fDomain) (hpath : r.2.fPath = c.fPath) {p : Prop}
    (hp : Clean r.2.fComment ∧ Clean r.2.fCommentUrl ↔ p) :
    Safe dates r.2 ∧ (Throws r → r.2 = c) ↔ p := by
  rw [safe_iff hdates, hdomain, hpath, hp]
  constructor
  · rintro ⟨⟨-, -, hp⟩, -⟩
    exact hp
  · intro hp
    refine ⟨⟨h.domain, h.path, hp⟩, ?_⟩
    rintro ⟨message, hmessage⟩
    rw [hr] at hmessage
    cases hmessage

theorem call_safe_iff (hdates : ∀ d, Clean (dates.toText d)) (h : Safe dates c) (call : Call D) :
    Safe dates (c.call dates call).2 ∧
        (Throws (c.call dates call) → (c.call dates call).2 = c) ↔ Harmless c call := by
  obtain ⟨-, -, hcomment, hcommentUrl⟩ := (safe_iff hdates c).mp h
  have hsame : Clean c.fComment ∧ Clean c.fCommentUrl ↔ True :=
    iff_of_true ⟨hcomment, hcommentUrl⟩ trivial
  cases call with
  | setDomain domain => exact setDomain_safe_iff hdates h domain
  | setPath path => exact setPath_safe_iff hdates h path
  | setComment comment =>
    exact comment_safe_iff hdates h (r := c.call dates (.setComment comment)) rfl rfl rfl
      (and_iff_left hcommentUrl)
  | setCommentUrl commentUrl =>
    exact comment_safe_iff hdates h (r := c.call dates (.setCommentUrl commentUrl)) rfl rfl rfl
      (and_iff_right hcomment)
  | setText value =>
    exact comment_safe_iff hdates h (r := c.call dates (.setText value)) rfl rfl rfl hsame
  | setValue value =>
    exact comment_safe_iff hdates h (r := c.call dates (.setValue value)) rfl rfl rfl hsame
  | setDelete =>
    exact comment_safe_iff hdates h (r := c.call dates .setDelete) rfl rfl rfl hsame
  | setSession =>
    exact comment_safe_iff hdates h (r := c.call dates .setSession) rfl rfl rfl hsame
  | setExpire date time =>
    exact comment_safe_iff hdates h (r := c.call dates (.setExpire date time)) rfl rfl rfl hsame
  | setExpireIn seconds time =>
    exact comment_safe_iff hdates h (r := c.call dates (.setExpireIn seconds time)) rfl rfl rfl
      hsame
  | setSecure secure =>
    exact comment_safe_iff hdates h (r := c.call dates (.setSecure secure)) rfl rfl rfl hsame
  | setHttpOnly httpOnly =>
    exact comment_safe_iff hdates h (r := c.call dates (.setHttpOnly httpOnly)) rfl rfl rfl hsame

end Calls

section Runs

variable {D : Type} (dates : Dates D) {c : Cookie D}

def SafeRun : Cookie D → List (Call D) → Prop
  | c, [] => Safe dates c
  | c, call :: rest => Safe dates c ∧ (Throws (c.call dates call) → (c.call dates call).2 = c) ∧
      SafeRun (c.call dates call).2 rest

def HarmlessRun : Cookie D → List (Call D) → Prop
  | _, [] => True
  | c, call :: rest => Harmless c call ∧ HarmlessRun (c.call dates call).2 rest

theorem SafeRun.safe {calls : List (Call D)} (h : SafeRun dates c calls) :
    Safe dates c := by
  cases calls with
  | nil => exact h
  | cons call rest => exact h.1

theorem safeRun_of_safe (hdates : ∀ d, Clean (dates.toText d)) (h : Safe dates c)
    (calls : List (Call D)) :
    SafeRun dates c calls ↔ HarmlessRun dates c calls := by
  induction calls generalizing c with
  | nil => exact iff_of_true h trivial
  | cons call rest ih =>
    have hcall := call_safe_iff hdates h call
    constructor
    · rintro ⟨-, hthrows, hrest⟩
      have hsafe := hrest.safe
      exact ⟨hcall.mp ⟨hsafe, hthrows⟩, (ih hsafe).mp hrest⟩
    · rintro ⟨hharmless, hrest⟩
      obtain ⟨hsafe, hthrows⟩ := hcall.mpr hharmless
      exact ⟨h, hthrows, (ih hsafe).mpr hrest⟩

def Constructed (c : Cookie D) : Prop :=
  c = unnamed dates ∨ ∃ snap name value, create dates snap name value = .ok c

theorem Constructed.fields (h : Constructed dates c) :
    (∀ x ∈ c.fPath, isPathCharacter x = true) ∧ Clean c.fComment ∧ Clean c.fCommentUrl := by
  rcases h with rfl | ⟨snap, name, value, hcreate⟩
  · exact ⟨by simp [unnamed], clean_nil, clean_nil⟩
  · rw [create] at hcreate
    split_ifs at hcreate
    obtain rfl := Except.ok.inj hcreate
    refine ⟨?_, clean_nil, clean_nil⟩
    intro x hx
    obtain rfl : x = 47 := List.mem_singleton.mp hx
    decide

/-- From its construction on, a cookie is safe if and only if its first domain is a domain and every
call is harmless. -/
theorem safeRun_iff (hdates : ∀ d, Clean (dates.toText d)) {c : Cookie D}
    (hc : Constructed dates c) (calls : List (Call D)) :
    SafeRun dates c calls ↔
      (∀ x ∈ c.fDomain, isDomainCharacter x = true) ∧ HarmlessRun dates c calls := by
  obtain ⟨hpath, hcomments⟩ := hc.fields
  have hsafe : Safe dates c ↔ ∀ x ∈ c.fDomain, isDomainCharacter x = true := by
    rw [safe_iff hdates]
    exact and_iff_left ⟨hpath, hcomments⟩
  constructor
  · intro h
    exact ⟨hsafe.mp h.safe, (safeRun_of_safe dates hdates h.safe calls).mp h⟩
  · rintro ⟨hdomain, hharmless⟩
    exact (safeRun_of_safe dates hdates (hsafe.mpr hdomain) calls).mpr hharmless

/-- A cookie with a domain and a path. -/
theorem safeRun_domain_path :
    let dates : Dates Unit :=
      ⟨(), fun _ => (), fun _ => false, fun _ _ => false, fun _ => 0, fun _ => []⟩
    ∃ c, create dates none (ascii "a") (ascii "b") = .ok c ∧
      SafeRun dates c [.setDomain (ascii ".c.de"), .setPath (ascii "/f")] := by
  intro dates
  refine ⟨_, rfl, (safeRun_iff dates (fun _ => clean_nil) (Or.inr ⟨none, ascii "a", ascii "b", rfl⟩)
    _).mpr ?_⟩
  refine ⟨List.forall_mem_nil _, ⟨?_, by decide⟩, Or.inr ?_, trivial⟩
  · exact List.forall_iff_forall_mem.mp (by decide)
  · exact List.forall_iff_forall_mem.mp (by decide)

/-- A comment with a line end is in the header. -/
theorem comment_splits_header :
    ¬ ∀ (D : Type) (dates : Dates D) (c : Cookie D) (calls : List (Call D)),
      (∀ d, Clean (dates.toText d)) → Constructed dates c → SafeRun dates c calls := by
  intro h
  let dates : Dates Unit :=
    ⟨(), fun _ => (), fun _ => false, fun _ _ => false, fun _ => 0, fun _ => []⟩
  have hrun := h Unit dates (unnamed dates) [.setComment [10]] (fun _ => clean_nil) (Or.inl rfl)
  have hsafe : Safe dates ((unnamed dates).call dates (.setComment [10])).2 := hrun.2.2.safe
  have hclean := hsafe.header ⟨0, 0, ()⟩
  revert hclean
  decide

end Runs

end SnapCpp.HttpCookie
