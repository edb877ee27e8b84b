import SnapCpp.CssPrintedStrings

/-!
The comments that are kept. A comment of C++ is converted line by line, since it is not valid in a
style sheet, and the text of the lines is written as it is.
-/
namespace SnapCpp.Css

/-- `"*/"`. -/
def commentEnd : Bytes := [42, 47]

def outputLines (first : Bool) (comment : Bytes) : Bytes :=
  match h : comment.dropWhile (· ≠ 10) with
  | _ :: rest =>
      (if first then [47, 42, 32] else [32, 42, 32]) ++ comment.takeWhile (· ≠ 10) ++ [10] ++
        outputLines false rest
  | [] =>
      if comment = [] then []
      else if first then [47, 42, 32] ++ comment ++ [32, 42, 47] ++ [10]
      else [32, 42, 32] ++ comment ++ [10] ++ [32, 42, 47] ++ [10]
termination_by comment.length
decreasing_by
  have hlength := List.length_dropWhile_le (· ≠ 10) comment
  rw [h, List.length_cons] at hlength
  omega

/-- `newline_if_not_empty()`, where something was written on this line. -/
def newlineIfNotEmpty (started : Bool) : Bytes := if started then [10] else []

def outputComment (started : Bool) (n : Token) : Bytes :=
  newlineIfNotEmpty started ++
    if n.fInteger = 0 then outputLines true n.fString
    else [47, 42, 32] ++ n.fString ++ [32, 42, 47] ++ [10]

structure OneComment (text : Bytes) : Prop where
  start : [47, 42] <+: text
  stop : commentEnd <:+ text
  apart : 4 ≤ text.length
  only : ¬ commentEnd <:+: text.dropLast

section Pairs

variable {α : Type*} {x y c : α} {l m : List α}

theorem pair_infix_cons : [x, y] <:+: c :: l ↔ c = x ∧ l.head? = some y ∨ [x, y] <:+: l := by
  rw [List.infix_cons_iff, List.cons_prefix_cons]
  cases l with
  | nil => simp
  | cons d l => simp [eq_comm]

theorem pair_infix_append : [x, y] <:+: l ++ m ↔
    [x, y] <:+: l ∨ [x, y] <:+: m ∨ l.getLast? = some x ∧ m.head? = some y := by
  induction l with
  | nil => simp
  | cons c l ih =>
    rw [List.cons_append, pair_infix_cons, ih, pair_infix_cons]
    cases l with
    | nil =>
      simp
      tauto
    | cons d l =>
      simp [List.getLast?_cons_cons]
      tauto

end Pairs

section Lines

variable {str : Bytes}

/-- The text of a comment with a star at the start of each line but the first one. -/
def starred (str : Bytes) : Bytes := str.flatMap fun b => if b = 10 then [10, 32, 42, 32] else [b]

theorem starred_plain (h : 10 ∉ str) : starred str = str := by
  induction str with
  | nil => rfl
  | cons b str ih =>
    rw [List.mem_cons, not_or] at h
    rw [starred, List.flatMap_cons, if_neg (Ne.symm h.1), ← starred, ih h.2]
    rfl

theorem starred_append (l m : Bytes) : starred (l ++ m) = starred l ++ starred m :=
  List.flatMap_append

theorem outputLines_eq (first : Bool) (hne : str ≠ []) (hlast : str.getLast? ≠ some 10) :
    outputLines first str = (if first then [47, 42, 32] else [32, 42, 32]) ++ starred str ++
      (if first ∧ 10 ∉ str then [] else [10]) ++ [32, 42, 47] ++ [10] := by
  fun_induction outputLines first str with
  | case1 first comment b rest h ih =>
    have hb : b = 10 := by
      have hhead := List.head?_dropWhile_not (· ≠ (10 : UInt8)) comment
      rw [h] at hhead
      simpa using hhead
    subst hb
    have hsplit : comment = comment.takeWhile (· ≠ 10) ++ 10 :: rest := by
      rw [← h, List.takeWhile_append_dropWhile]
    have hplain : 10 ∉ comment.takeWhile (· ≠ 10) := fun hmem =>
      absurd (List.mem_takeWhile_imp hmem) (by decide)
    have hmem : 10 ∈ comment := by
      rw [hsplit]
      exact List.mem_append_right _ List.mem_cons_self
    have hrest : rest ≠ [] := by
      rintro rfl
      rw [hsplit, List.getLast?_append] at hlast
      exact hlast rfl
    have hlast' : rest.getLast? ≠ some 10 := by
      obtain ⟨c, rest, rfl⟩ := List.exists_cons_of_ne_nil hrest
      rwa [hsplit, List.getLast?_append_cons, List.getLast?_cons_cons] at hlast
    have hstarred : starred comment =
        comment.takeWhile (· ≠ 10) ++ ([10, 32, 42, 32] ++ starred rest) := by
      conv_lhs => rw [hsplit]
      rw [starred_append, starred_plain hplain]
      rfl
    have hmore : ¬ (first = true ∧ 10 ∉ comment) := fun hnone => hnone.2 hmem
    rw [ih hrest hlast', if_neg hmore, hstarred]
    simp
  | case2 first h => exact absurd rfl hne
  | case3 comment h hcomment =>
    have hplain : 10 ∉ comment := fun hmem => by
      simpa using List.dropWhile_eq_nil_iff.mp h 10 hmem
    rw [starred_plain hplain]
    simp [hplain]
  | case4 first comment h hcomment hfirst =>
    have hplain : 10 ∉ comment := fun hmem => by
      simpa using List.dropWhile_eq_nil_iff.mp h 10 hmem
    rw [starred_plain hplain]
    simp [hfirst]

theorem pair_starred (str : Bytes) : commentEnd <:+: starred str ↔ commentEnd <:+: str := by
  induction str with
  | nil => rfl
  | cons b str ih =>
    have hhead : (starred str).head? = some 47 ↔ str.head? = some 47 := by
      cases str with
      | nil => rfl
      | cons c str =>
        rw [starred, List.flatMap_cons]
        by_cases hc : c = 10
        · rw [if_pos hc, hc]
          simp
        · rw [if_neg hc]
          simp
    rw [commentEnd] at ih ⊢
    rw [starred, List.flatMap_cons, ← starred, pair_infix_cons]
    by_cases hb : b = 10
    · rw [if_pos hb, hb]
      simp only [List.cons_append, List.nil_append, pair_infix_cons, ih, List.head?_cons]
      simp
    · rw [if_neg hb, List.singleton_append, pair_infix_cons, ih, hhead]

end Lines

section Kept

variable {n : Token} {s t : Lexer} {body : Bytes}

def StaysComment (started : Bool) (n : Token) : Prop :=
  ∃ text, outputComment started n = newlineIfNotEmpty started ++ text ++ [10] ∧ OneComment text

theorem oneComment_iff (body : Bytes) :
    OneComment ([47, 42, 32] ++ body ++ [32, 42, 47]) ↔ ¬ commentEnd <:+: body := by
  have hinner : commentEnd <:+: ([47, 42, 32] ++ body ++ [32, 42, 47]).dropLast ↔
      commentEnd <:+: body := by
    have hdrop : ([47, 42, 32] ++ body ++ [32, 42, 47]).dropLast =
        47 :: 42 :: 32 :: (body ++ [32, 42]) := by
      rw [List.dropLast_append_of_ne_nil (by simp)]
      rfl
    rw [hdrop, commentEnd]
    simp only [pair_infix_cons, pair_infix_append]
    simp
  constructor
  · exact fun h hmem => h.only (hinner.mpr hmem)
  · refine fun h => ⟨⟨32 :: body ++ [32, 42, 47], rfl⟩, ⟨[47, 42, 32] ++ body ++ [32], ?_⟩, ?_,
      fun hmem => h (hinner.mp hmem)⟩
    · simp [commentEnd]
    · simp

theorem staysComment_iff (started : Bool) (hne : n.fString ≠ [])
    (hlast : n.fString.getLast? ≠ some 10) :
    StaysComment started n ↔ ¬ commentEnd <:+: n.fString := by
  have hwritten : ∃ body, outputComment started n =
      newlineIfNotEmpty started ++ ([47, 42, 32] ++ body ++ [32, 42, 47]) ++ [10] ∧
      (commentEnd <:+: body ↔ commentEnd <:+: n.fString) := by
    rw [outputComment]
    by_cases hkind : n.fInteger = 0
    · refine ⟨starred n.fString ++ (if 10 ∉ n.fString then [] else [10]), ?_, ?_⟩
      · rw [if_pos hkind, outputLines_eq true hne hlast]
        simp
      · rw [commentEnd, pair_infix_append, ← commentEnd, pair_starred]
        split_ifs <;> simp [commentEnd, pair_infix_cons]
    · refine ⟨n.fString, ?_, Iff.rfl⟩
      rw [if_neg hkind]
      simp
  obtain ⟨body, houtput, hbody⟩ := hwritten
  rw [StaysComment, houtput, ← hbody, ← oneComment_iff]
  constructor
  · rintro ⟨text, htext, hone⟩
    rwa [List.append_cancel_left (List.append_cancel_right htext)]
  · exact fun hone => ⟨_, rfl, hone⟩

theorem trimComment_kept {str : Bytes} (h : preserve <:+: str) :
    trimComment str ≠ [] ∧ (trimComment str).getLast? ≠ some 10 := by
  have hmem : (64 : UInt8) ∈ str.reverse := List.mem_reverse.mpr (h.subset (by decide))
  rw [trimComment]
  constructor
  · intro hnil
    rw [List.reverse_eq_nil_iff, List.dropWhile_eq_nil_iff] at hnil
    exact absurd (hnil 64 hmem) (by decide)
  · rw [List.getLast?_reverse]
    intro hhead
    have hspace := List.head?_dropWhile_not (fun b : UInt8 => isSpace b.toNat) str.reverse
    rw [hhead] at hspace
    exact absurd hspace (by decide)

/-- A comment of the lexer stays a comment unless its text holds the end of one. -/
theorem nextToken_staysComment (hnext : nextToken s = .ok (n, t)) (htype : n.fType = .comment)
    (started : Bool) : StaysComment started n ↔ ¬ commentEnd <:+: n.fString := by
  have hrules : TokenRules fun tok => tok.fType = .comment →
      tok.fString ≠ [] ∧ tok.fString.getLast? ≠ some 10 := by
    refine .of_others (fun tok htok heq => ?_)
      (comment_yields fun str _ hpreserve _ => trimComment_kept hpreserve) fun d => ?_
    · rw [heq] at htok
      exact absurd (by decide) htok
    · exact (unicodeRange_type d).mono fun tok htok heq => by rw [htok] at heq; cases heq
  obtain ⟨hne, hlast⟩ := (hrules.nextToken_returns s).of_ok hnext htype
  exact staysComment_iff started hne hlast

end Kept

section Examples

variable {throws : Throw → Prop} {s : Lexer} {room : ℕ} {c : ℤ} {cs : List ℤ}

theorem cppCommentLoop_ahead (fuel : ℕ) (str : Bytes) (hplain : Plain cs)
    (hline : ∀ c ∈ cs, ¬ IsLine c) (h : Ahead s room cs) (hfuel : cs.length < fuel) :
    Ensures (cppCommentLoop fuel str) s throws fun str' _ => str' = str ++ spell cs := by
  induction cs generalizing s room fuel str with
  | nil =>
    obtain ⟨fuel, rfl⟩ : ∃ n, fuel = n + 1 := ⟨fuel - 1, by omega⟩
    rw [cppCommentLoop]
    refine Ensures.bind (h.getc_end ?_)
    rw [if_pos rfl, spell_nil, List.append_nil]
    exact Ensures.pure rfl
  | cons c cs ih =>
    obtain ⟨fuel, rfl⟩ : ∃ n, fuel = n + 1 := ⟨fuel - 1, by omega⟩
    obtain ⟨hc, hline⟩ := List.forall_mem_cons.mp hline
    have hnewline : c ≠ '\n' := by
      rintro rfl
      exact hc (by decide)
    rw [cppCommentLoop]
    refine Ensures.bind (h.getc fun t ht => ?_)
    rw [if_neg (ne_eof_of_pos (h.pos c List.mem_cons_self)), if_neg hnewline]
    refine Ensures.bind (ht.wctomb (hplain c List.mem_cons_self).1 fun ht => ?_)
    rw [List.length_cons] at hfuel
    refine (ih fuel _ hplain.tail hline ht (by omega)).mono fun str' _ hstr => ?_
    rw [hstr, List.append_assoc, ← spell_append, List.singleton_append]

/-- A comment of C++ on one line, up to the end of the document, is kept with its text. -/
theorem nextToken_line (hplain : Plain (c :: cs)) (hline : ∀ d ∈ c :: cs, ¬ IsLine d)
    (hblank : isBlank c = false) (hne : c ≠ replacement)
    (hpreserve : preserve <:+: spell (c :: cs)) :
    ∃ t, nextToken (.start (spell (('/' : ℤ) :: ('/' : ℤ) :: c :: cs))) =
      .ok ({ fType := .comment, fString := trimComment (spell (c :: cs)) }, t) := by
  have hall : Plain (('/' : ℤ) :: ('/' : ℤ) :: c :: cs) :=
    List.forall_mem_cons.mpr ⟨by decide, List.forall_mem_cons.mpr ⟨by decide, hplain⟩⟩
  have hslash : ¬ IsLine ('/' : ℤ) := by decide
  have hahead := Ahead.start hall
  have hcodes := normalise_append hline []
  rw [List.append_nil, normalise, List.append_nil] at hcodes
  rw [normalise_cons hslash, normalise_cons hslash, hcodes] at hahead
  have hturns := (Lexer.start (spell (('/' : ℤ) :: ('/' : ℤ) :: c :: cs))).codes_lt_turns
  rw [hahead.codes, List.length_cons, List.length_cons] at hturns
  have hturn : Ensures turn (.start (spell (('/' : ℤ) :: ('/' : ℤ) :: c :: cs)))
      (fun _ => False) fun x _ =>
        x = some { fType := .comment, fString := trimComment (spell (c :: cs)) } := by
    have hrange := (hplain c List.mem_cons_self).1.range
    have hpos := hplain.pos c List.mem_cons_self
    rw [turn]
    refine Ensures.bind (Ensures.bind (hahead.getc fun t ht => ?_))
    change Ensures (slashToken _) t _ _
    refine Ensures.bind (ht.getc fun u hu => ?_)
    rw [if_neg (by decide), if_pos rfl]
    generalize (Lexer.start (spell (('/' : ℤ) :: ('/' : ℤ) :: c :: cs))).turns = fuel at hturns ⊢
    obtain ⟨fuel, rfl⟩ : ∃ n, fuel = n + 1 := ⟨fuel - 1, by omega⟩
    rw [comment, if_neg (by decide), skipCommentSpaces]
    refine Ensures.bind (Ensures.bind (Ensures.bind (hu.getc fun v hv => ?_)))
    rw [hblank, if_neg (by decide)]
    refine hv.ungetc hpos hrange.2 hne (by decide) fun w hw => ?_
    refine Ensures.bind ((cppCommentLoop_ahead _ [] hplain hline hw (by omega)).mono
      fun str x hstr => Ensures.pure ?_)
    rw [hstr, List.nil_append, commentNode, if_pos hpreserve]
    exact Ensures.bind (warn_ensures fun y _ _ _ => Ensures.pure rfl)
  obtain ⟨x, t, hrun, rfl⟩ := hturn.total
  exact ⟨t, nextTokenLoop_some hrun⟩

/-- A comment that only asks to be kept. -/
theorem nextToken_staysComment_preserve : ∃ n t,
    nextToken (.start (spell [47, 47, 64, 112, 114, 101, 115, 101, 114, 118, 101])) = .ok (n, t) ∧
      (StaysComment true n ↔ ¬ commentEnd <:+: n.fString) := by
  have hplain : Plain [64, 112, 114, 101, 115, 101, 114, 118, 101] :=
    List.forall_iff_forall_mem.mp (by decide)
  have hline : ∀ c ∈ [64, 112, 114, 101, 115, 101, 114, 118, 101], ¬ IsLine c :=
    List.forall_iff_forall_mem.mp (by decide)
  obtain ⟨t, hnext⟩ := nextToken_line hplain hline (by decide) (by decide) ⟨[], [], by decide⟩
  exact ⟨_, t, hnext, nextToken_staysComment hnext rfl true⟩

/-- A comment of C++ may hold the end of a comment. -/
theorem cpp_comment_ends : ¬ ∀ s n t started, nextToken s = .ok (n, t) → n.fType = .comment →
    StaysComment started n := by
  intro h
  have hplain : Plain [64, 112, 114, 101, 115, 101, 114, 118, 101, 42, 47, 120] :=
    List.forall_iff_forall_mem.mp (by decide)
  have hline : ∀ c ∈ [64, 112, 114, 101, 115, 101, 114, 118, 101, 42, 47, 120], ¬ IsLine c :=
    List.forall_iff_forall_mem.mp (by decide)
  obtain ⟨t, hnext⟩ := nextToken_line hplain hline (by decide) (by decide)
    ⟨[], [42, 47, 120], by decide⟩
  have hstays := h _ _ t false hnext rfl
  rw [staysComment_iff false (by decide) (by decide)] at hstays
  exact hstays ⟨preserve, [120], by decide⟩

end Examples

end SnapCpp.Css
