import SnapCpp.ConfigFile

/-!
The environment variable of `advgetopt`. Its text is cut into arguments the way a shell does it:
white space separates, and what stands between two quotes belongs to the argument without the
quotes. Every way of writing a list of arguments is read back as that list without its empty
arguments: an argument counts as started only once it has a character.
-/
namespace SnapCpp.Getopt

open BufferConnection (Bytes)
open LineReader (cBytes)
open ConfigFile (ascii doubleQuote quote isspace)

def isQuote (c : UInt8) : Bool := c == doubleQuote || c == quote

def pushArgument (args : List Bytes) (a : Bytes) : List Bytes :=
  if a.isEmpty then args else args ++ [a]

def splitArguments (s : Bytes) (args : List Bytes) (a : Bytes) : List Bytes :=
  match s with
  | [] => pushArgument args a
  | c :: rest =>
      if isspace c then splitArguments (rest.dropWhile isspace) (pushArgument args a) []
      else if isQuote c then
        -- a quote that is not closed goes up to the end of the text
        splitArguments ((rest.dropWhile (· ≠ c)).drop 1) args (a ++ rest.takeWhile (· ≠ c))
      else splitArguments rest args (a ++ [c])
termination_by s.length
decreasing_by
  · exact Nat.lt_succ_of_le (List.length_dropWhile_le _ _)
  · rw [List.length_drop, List.length_cons]
    have := List.length_dropWhile_le (· ≠ c) rest
    omega
  · exact Nat.lt_succ_self _

/-- What `parse_arguments()` is given: `argc`, and `argv` through the null pointer at its end. -/
structure Arguments where
  argc : ℕ
  argv : List (Option Bytes)

def Arguments.of (program : Bytes) (args : List Bytes) : Arguments :=
  ⟨args.length + 1, some program :: args.map some ++ [none]⟩

/-- The call of `parse_arguments()` for the environment variable, where there is one. -/
def environmentCall (program : Bytes) (getenv : Bytes → Option Bytes) (name : Option Bytes) :
    Option Arguments := do
  let name ← name
  if name = [] then none
  else
    let s ← getenv name
    let args := splitArguments (cBytes s) [] []
    pure (Arguments.of program (args.map cBytes))

/-- A part of an argument as it is written. -/
inductive Piece where
  | bare (b : Bytes) (some : b ≠ []) (plain : ∀ c ∈ b, c ≠ 0 ∧ !isspace c ∧ !isQuote c)
  | single (b : Bytes) (plain : ∀ c ∈ b, c ≠ 0 ∧ c ≠ quote)
  | double (b : Bytes) (plain : ∀ c ∈ b, c ≠ 0 ∧ c ≠ doubleQuote)

def Piece.text : Piece → Bytes
  | bare b _ _ => b
  | single b _ => quote :: b ++ [quote]
  | double b _ => doubleQuote :: b ++ [doubleQuote]

def Piece.content : Piece → Bytes
  | bare b _ _ => b
  | single b _ => b
  | double b _ => b

/-- One way to write an argument. -/
structure Word where
  pieces : List Piece
  some : pieces ≠ []

def Word.text (w : Word) : Bytes := w.pieces.flatMap Piece.text

def Word.argument (w : Word) : Bytes := w.pieces.flatMap Piece.content

structure Blank where
  text : Bytes
  space : ∀ c ∈ text, isspace c

/-- White space between two arguments. -/
structure Gap extends Blank where
  some : text ≠ []

inductive Writing where
  | none (around : Blank)
  | words (before : Blank) (first : Word) (rest : List (Gap × Word)) (after : Blank)

namespace Writing

def restText (rest : List (Gap × Word)) : Bytes := rest.flatMap (fun e => e.1.text ++ e.2.text)

def text : Writing → Bytes
  | none around => around.text
  | words before first rest after =>
      before.text ++ (first.text ++ (restText rest ++ after.text))

def arguments : Writing → List Bytes
  | none _ => []
  | words _ first rest _ => first.argument :: rest.map (·.2.argument)

end Writing

section Reading

variable {args : List Bytes} {a : Bytes}

@[simp] theorem pushArgument_nil (args : List Bytes) : pushArgument args [] = args := rfl

theorem pushArgument_eq (args : List Bytes) (a : Bytes) :
    pushArgument args a = args ++ [a].filter (· ≠ []) := by
  cases a <;> simp [pushArgument]

theorem splitArguments_nil : splitArguments [] args a = pushArgument args a := by
  rw [splitArguments]

theorem splitArguments_space {c : UInt8} (rest : Bytes) (hc : isspace c) :
    splitArguments (c :: rest) args a =
      splitArguments (rest.dropWhile isspace) (pushArgument args a) [] := by
  rw [splitArguments, if_pos hc]

/-- White space in front of an argument is skipped. -/
theorem splitArguments_dropWhile (s : Bytes) :
    splitArguments (s.dropWhile isspace) args [] = splitArguments s args [] := by
  cases s with
  | nil => rfl
  | cons c rest =>
    by_cases hc : isspace c
    · rw [splitArguments_space rest hc, List.dropWhile_cons_of_pos hc, pushArgument_nil]
    · rw [List.dropWhile_cons_of_neg hc]

/-- White space ends the argument. -/
theorem splitArguments_gap (g : Gap) (rest : Bytes) :
    splitArguments (g.text ++ rest) args a = splitArguments rest (pushArgument args a) [] := by
  obtain ⟨⟨text, hspace⟩, hsome⟩ := g
  obtain ⟨c, more, rfl⟩ := List.exists_cons_of_ne_nil hsome
  have hmore : (more ++ rest).dropWhile isspace = rest.dropWhile isspace :=
    List.dropWhile_append_of_pos (List.forall_mem_cons.mp hspace).2
  rw [List.cons_append, splitArguments_space _ (hspace c List.mem_cons_self), hmore,
    splitArguments_dropWhile]

theorem splitArguments_before (b : Blank) (rest : Bytes) :
    splitArguments (b.text ++ rest) args [] = splitArguments rest args [] := by
  by_cases hb : b.text = []
  · rw [hb, List.nil_append]
  · exact splitArguments_gap ⟨b, hb⟩ rest

theorem splitArguments_after (b : Blank) :
    splitArguments b.text args a = pushArgument args a := by
  by_cases hb : b.text = []
  · rw [hb, splitArguments_nil]
  · rw [← List.append_nil b.text, splitArguments_gap ⟨b, hb⟩ [], splitArguments_nil,
      pushArgument_nil]

theorem splitArguments_bare {b : Bytes} (rest : Bytes)
    (hb : ∀ c ∈ b, c ≠ 0 ∧ !isspace c ∧ !isQuote c) :
    splitArguments (b ++ rest) args a = splitArguments rest args (a ++ b) := by
  induction b generalizing a with
  | nil => rw [List.nil_append, List.append_nil]
  | cons c more ih =>
    obtain ⟨-, hspace, hquote⟩ := hb c List.mem_cons_self
    rw [Bool.not_eq_true'] at hspace hquote
    rw [List.cons_append, splitArguments, if_neg (by simp [hspace]), if_neg (by simp [hquote]),
      ih (List.forall_mem_cons.mp hb).2, List.append_assoc, List.singleton_append]

/-- The quotes are removed as they are read. -/
theorem splitArguments_quoted {q : UInt8} {b : Bytes} (rest : Bytes) (hq : isQuote q)
    (hb : ∀ c ∈ b, c ≠ q) :
    splitArguments (q :: b ++ [q] ++ rest) args a = splitArguments rest args (a ++ b) := by
  have hspace : ¬ isspace q := by
    rw [isQuote, Bool.or_eq_true, beq_iff_eq, beq_iff_eq] at hq
    rcases hq with rfl | rfl <;> decide
  have hdrop : (b ++ q :: rest).dropWhile (· ≠ q) = q :: rest := by
    rw [List.dropWhile_append_of_pos (by simpa using hb), List.dropWhile_cons_of_neg (by simp)]
  have htake : (b ++ q :: rest).takeWhile (· ≠ q) = b := by
    rw [List.takeWhile_append_of_pos (by simpa using hb), List.takeWhile_cons_of_neg (by simp),
      List.append_nil]
  rw [List.cons_append, List.cons_append, List.append_assoc, List.singleton_append,
    splitArguments, if_neg hspace, if_pos hq, hdrop, htake, List.drop_one, List.tail_cons]

theorem splitArguments_piece (p : Piece) (rest : Bytes) :
    splitArguments (p.text ++ rest) args a = splitArguments rest args (a ++ p.content) := by
  cases p with
  | bare b _ hb => exact splitArguments_bare rest hb
  | single b hb | double b hb =>
    exact splitArguments_quoted rest (by decide) (fun c hc => (hb c hc).2)

theorem splitArguments_pieces (ps : List Piece) (rest : Bytes) :
    splitArguments (ps.flatMap Piece.text ++ rest) args a =
      splitArguments rest args (a ++ ps.flatMap Piece.content) := by
  induction ps generalizing a with
  | nil => simp
  | cons p more ih =>
    rw [List.flatMap_cons, List.flatMap_cons, List.append_assoc, splitArguments_piece, ih,
      List.append_assoc]

theorem splitArguments_word (w : Word) (rest : Bytes) :
    splitArguments (w.text ++ rest) args [] = splitArguments rest args w.argument :=
  splitArguments_pieces w.pieces rest

theorem splitArguments_rest (rest : List (Gap × Word)) (after : Blank) :
    splitArguments (Writing.restText rest ++ after.text) args a =
      args ++ (a :: rest.map (·.2.argument)).filter (· ≠ []) := by
  induction rest generalizing args a with
  | nil =>
    rw [Writing.restText, List.flatMap_nil, List.nil_append, splitArguments_after, List.map_nil,
      pushArgument_eq]
  | cons e more ih =>
    have htext : Writing.restText (e :: more) ++ after.text =
        e.1.text ++ (e.2.text ++ (Writing.restText more ++ after.text)) := by
      simp only [Writing.restText, List.flatMap_cons, List.append_assoc]
    rw [htext, splitArguments_gap, splitArguments_word, ih, pushArgument_eq, List.append_assoc,
      ← List.filter_append, List.singleton_append, List.map_cons]

theorem splitArguments_text (w : Writing) :
    splitArguments w.text [] [] = w.arguments.filter (· ≠ []) := by
  cases w with
  | none around => exact splitArguments_after around
  | words before first rest after =>
    rw [Writing.text, splitArguments_before, splitArguments_word, splitArguments_rest,
      List.nil_append]
    rfl

end Reading

theorem cBytes_eq {l : Bytes} (h : ∀ c ∈ l, c ≠ 0) : cBytes l = l :=
  List.takeWhile_eq_self_iff.mpr (by simpa using h)

theorem isspace_ne_zero {c : UInt8} (h : isspace c) : c ≠ 0 := by
  rintro rfl
  exact absurd h (by decide)

theorem Blank.text_ne_zero (b : Blank) : ∀ c ∈ b.text, c ≠ 0 :=
  fun c hc => isspace_ne_zero (b.space c hc)

theorem Piece.text_ne_zero (p : Piece) : ∀ c ∈ p.text, c ≠ 0 := by
  have hquoted {q : UInt8} {b : Bytes} (hq : q ≠ 0) (hb : ∀ c ∈ b, c ≠ 0) :
      ∀ c ∈ q :: b ++ [q], c ≠ 0 := by
    intro c hc
    simp only [List.cons_append, List.mem_cons, List.mem_append, List.not_mem_nil, or_false] at hc
    rcases hc with rfl | hc | rfl
    · exact hq
    · exact hb c hc
    · exact hq
  cases p with
  | bare b _ hb => exact fun c hc => (hb c hc).1
  | single b hb | double b hb => exact hquoted (by decide) (fun c hc => (hb c hc).1)

theorem Piece.content_subset (p : Piece) : p.content ⊆ p.text := by
  cases p with
  | bare b _ _ => exact List.Subset.refl b
  | single b _ | double b _ => intro c hc; simp_all [Piece.content, Piece.text]

theorem Word.text_ne_zero (w : Word) : ∀ c ∈ w.text, c ≠ 0 := by
  intro c hc
  obtain ⟨p, -, hp⟩ := List.mem_flatMap.mp hc
  exact p.text_ne_zero c hp

theorem Word.argument_ne_zero (w : Word) : ∀ c ∈ w.argument, c ≠ 0 := by
  intro c hc
  obtain ⟨p, -, hp⟩ := List.mem_flatMap.mp hc
  exact p.text_ne_zero c (p.content_subset hp)

namespace Writing

theorem text_ne_zero (w : Writing) : ∀ c ∈ w.text, c ≠ 0 := by
  cases w with
  | none around => exact around.text_ne_zero
  | words before first rest after =>
    intro c hc
    simp only [text, restText, List.mem_append, List.mem_flatMap] at hc
    rcases hc with hc | hc | ⟨e, -, hc | hc⟩ | hc
    · exact before.text_ne_zero c hc
    · exact first.text_ne_zero c hc
    · exact e.1.text_ne_zero c hc
    · exact e.2.text_ne_zero c hc
    · exact after.text_ne_zero c hc

theorem arguments_ne_zero (w : Writing) : ∀ a ∈ w.arguments, ∀ c ∈ a, c ≠ 0 := by
  cases w with
  | none around => exact fun a ha => absurd ha List.not_mem_nil
  | words before first rest after =>
    intro a ha
    rcases List.mem_cons.mp ha with rfl | ha
    · exact first.argument_ne_zero
    · obtain ⟨e, -, rfl⟩ := List.mem_map.mp ha
      exact e.2.argument_ne_zero

end Writing

theorem environmentCall_eq {getenv : Bytes → Option Bytes} {name : Bytes} (program : Bytes)
    (w : Writing) (hname : name ≠ []) (hget : getenv name = some w.text) :
    environmentCall program getenv (some name) =
      some (Arguments.of program (w.arguments.filter (· ≠ []))) := by
  have hbytes : (w.arguments.filter (· ≠ [])).map cBytes = w.arguments.filter (· ≠ []) :=
    (List.map_congr_left fun a ha =>
      cBytes_eq (w.arguments_ne_zero a (List.mem_filter.mp ha).1)).trans (List.map_id _)
  simp only [environmentCall, Option.bind_eq_bind, Option.bind_some, hget, if_neg hname,
    cBytes_eq w.text_ne_zero, splitArguments_text, hbytes]
  rfl

theorem Arguments.of_injective {program : Bytes} {l m : List Bytes}
    (h : Arguments.of program l = Arguments.of program m) : l = m := by
  have hargv := congrArg Arguments.argv h
  simp only [Arguments.of, List.cons_append, List.cons.injEq, true_and] at hargv
  exact List.map_injective_iff.mpr (fun _ _ => Option.some.inj) (List.append_cancel_right hargv)

/-- The arguments reach `parse_arguments()` as they were written. -/
def HandsOver (program : Bytes) (getenv : Bytes → Option Bytes) (name : Bytes) (w : Writing) :
    Prop :=
  environmentCall program getenv (some name) = some (Arguments.of program w.arguments)

theorem handsOver_iff_filter {getenv : Bytes → Option Bytes} {name : Bytes} (program : Bytes)
    {w : Writing} (hname : name ≠ []) (hget : getenv name = some w.text) :
    HandsOver program getenv name w ↔ w.arguments.filter (· ≠ []) = w.arguments := by
  rw [HandsOver, environmentCall_eq program w hname hget, Option.some_inj]
  exact ⟨Arguments.of_injective, fun h => by rw [h]⟩

/-- The list is handed over exactly if none of its arguments is empty. -/
theorem handsOver_iff {getenv : Bytes → Option Bytes} {name : Bytes} (program : Bytes)
    (w : Writing) (hname : name ≠ []) (hget : getenv name = some w.text) :
    HandsOver program getenv name w ↔ [] ∉ w.arguments := by
  rw [handsOver_iff_filter program hname hget, List.filter_eq_self]
  constructor
  · intro h hmem
    exact of_decide_eq_true (h [] hmem) rfl
  · intro h a ha
    exact decide_eq_true (fun hnil => h (hnil ▸ ha))

def noBlank : Blank := ⟨[], List.forall_mem_nil _⟩

def oneSpace : Gap := ⟨⟨ascii " ", List.forall_iff_forall_mem.mp (by decide)⟩, by decide⟩

def singleQuoted (b : Bytes) (plain : ∀ c ∈ b, c ≠ 0 ∧ c ≠ quote) : Word :=
  ⟨[.single b plain], List.cons_ne_nil _ _⟩

/-- The option `-a`, the word and the parameter `'b c'`, with a space after each of them. -/
def withParameter (w : Word) : Writing :=
  .words noBlank
    ⟨[.bare (ascii "-a") (by decide) (List.forall_iff_forall_mem.mp (by decide))], by decide⟩
    [(oneSpace, w),
      (oneSpace, singleQuoted (ascii "b c") (List.forall_iff_forall_mem.mp (by decide)))]
    oneSpace.toBlank

/-- The parameter `x"'"''`, in three pieces. -/
def mixedWord : Word :=
  ⟨[.bare (ascii "x") (by decide) (List.forall_iff_forall_mem.mp (by decide)),
    .double (ascii "'") (List.forall_iff_forall_mem.mp (by decide)),
    .single [] (List.forall_mem_nil _)], by decide⟩

def setenv (name text : Bytes) (asked : Bytes) : Option Bytes :=
  if asked = name then some text else none

theorem handsOver_mixed :
    HandsOver (ascii "tool") (setenv (ascii "OPTIONS") (withParameter mixedWord).text)
      (ascii "OPTIONS") (withParameter mixedWord) :=
  (handsOver_iff _ (withParameter mixedWord) (by decide) (if_pos rfl)).mpr (by decide)

/-- An empty parameter is lost, and the one after it takes its place. -/
theorem empty_parameter_lost :
    ¬ HandsOver (ascii "tool")
      (setenv (ascii "OPTIONS") (withParameter (singleQuoted [] (List.forall_mem_nil _))).text)
      (ascii "OPTIONS") (withParameter (singleQuoted [] (List.forall_mem_nil _))) := by
  rw [handsOver_iff_filter (w := withParameter _) _ (by decide) (if_pos rfl)]
  decide

end SnapCpp.Getopt
