import SnapCpp.ExprSyntax

/-!
The grammar of the expressions is not ambiguous. A reader goes over the tokens from left to right
with the level it is at, and takes operators for as long as they are of that level. It finds each
expression that is parsed, so the tokens of two of them are different, and the node that is
compiled is the one of the expression.
-/
namespace SnapCpp.Expr

open SnapCpp.Parser (Token Item Rule Grammar Derives Derivable)

section Reader

def allOperations : List BinaryOperation :=
  [.multiply, .divide, .modulo, .add, .subtract, .shiftLeft, .shiftRight, .less, .lessOrEqual,
    .greater, .greaterOrEqual, .minimum, .maximum, .equal, .notEqual, .bitwiseAnd, .bitwiseXor,
    .bitwiseOr, .logicalAnd, .logicalXor, .logicalOr]

def operationAt (k : ℕ) (s : QString) : Option BinaryOperation :=
  allOperations.find? fun op => op.level == k && op.symbol == s

def unaryAt (s : QString) : Option UnaryOperation :=
  [.logicalNot, .bitwiseNot, .identity, .negate].find? fun op => op.symbol == s

inductive Task where
  | start (k : ℕ)
  | more (k : ℕ) (l : Expression)

abbrev Found := Option (Expression × List Token)

variable (next : Task → List Token → Found)

def readNames : List Token → List QString × List Token
  | .literal s :: .identifier x :: rest =>
      if s = ascii "::" then (x :: (readNames rest).1, (readNames rest).2)
      else ([], .literal s :: .identifier x :: rest)
  | ts => ([], ts)

def readList (make : Expression → Expression) (ts : List Token) : Found :=
  (next (.start 0) ts).bind fun (l, rest) =>
    match rest with
    | t :: rest => if t = word ")" then some (make l, rest) else none
    | [] => none

def readUnary : List Token → Found
  | .literal s :: rest =>
      match unaryAt s with
      | some op => (next (.start 14) rest).map fun (e, rest) => (.unary op e, rest)
      | none => if s = ascii "(" then readList next .paren rest else none
  | .identifier x :: rest =>
      match readNames rest with
      | (names, t :: rest') =>
          if t = word "(" then
            if rest'.head? = some (word ")") then some (.callEmpty ⟨x, names⟩, rest'.tail)
            else readList next (.call ⟨x, names⟩) rest'
          else some (.identifier x, rest)
      | (_, []) => some (.identifier x, rest)
  | .keyword n :: rest => some (.boolean (n == keywordTrue), rest)
  | .string value :: rest => some (.string value, rest)
  | .integer value :: rest => some (.integer value, rest)
  | .floatingPoint text :: rest => some (.floatingPoint text, rest)
  | [] => none

def readAssignment (ts : List Token) : Found :=
  match ts with
  | .identifier x :: t :: rest =>
      if t = word ":=" then
        (next (.start 2) rest).map fun (e, rest) => (.assignment (.identifier x) e, rest)
      else next (.start 2) ts
  | _ => next (.start 2) ts

def readConditional (c : Expression) (ts : List Token) : Found :=
  (next (.start 1) ts).bind fun (x, rest) =>
    match rest with
    | t :: rest =>
        if t = word ":" then
          (next (.start 3) rest).bind fun (y, rest) => next (.more 2 (.conditional c x y)) rest
        else none
    | [] => none

def readMore (k : ℕ) (l : Expression) (ts : List Token) : Found :=
  match ts with
  | .literal s :: rest =>
      if k = 0 then
        if s = ascii "," then
          (next (.start 1) rest).bind fun (e, rest) => next (.more 0 (.comma l e)) rest
        else some (l, ts)
      else if k = 2 then
        if s = ascii "?" then readConditional next l rest else some (l, ts)
      else
        match operationAt k s with
        | some op =>
            (next (.start (k + 1)) rest).bind fun (r, rest) =>
              next (.more k (.binary op l r)) rest
        | none => some (l, ts)
  | _ => some (l, ts)

def read : ℕ → Task → List Token → Found
  | 0, _, _ => none
  | n + 1, .start k, ts =>
      if k = 1 then readAssignment (read n) ts
      else if k < 14 then
        (read n (.start (k + 1)) ts).bind fun (l, rest) => read n (.more k l) rest
      else readUnary (read n) ts
  | n + 1, .more k l, ts => readMore (read n) k l ts

def Reads (task : Task) (ts : List Token) (x : Expression × List Token) : Prop :=
  ∃ n₀, ∀ n, n₀ ≤ n → read n task ts = some x

theorem Reads.unique {task : Task} {ts : List Token} {x y : Expression × List Token}
    (h : Reads task ts x) (h' : Reads task ts y) : x = y := by
  obtain ⟨n, hn⟩ := h
  obtain ⟨m, hm⟩ := h'
  have hx := hn (max n m) (Nat.le_max_left n m)
  have hy := hm (max n m) (Nat.le_max_right n m)
  exact Option.some.inj (hx.symm.trans hy)

end Reader

section Steps

variable {k : ℕ} {ts rest : List Token} {e l c : Expression} {x : Expression × List Token}

theorem reads_step {task task' : Task} {ts' : List Token} {y : Expression × List Token}
    (h : Reads task' ts' y)
    (hstep : ∀ n, read n task' ts' = some y → read (n + 1) task ts = some x) :
    Reads task ts x := by
  obtain ⟨n₀, hn⟩ := h
  refine ⟨n₀ + 1, fun n hle => ?_⟩
  obtain ⟨m, rfl⟩ := Nat.exists_eq_add_of_le' hle
  exact hstep (m + n₀) (hn _ (Nat.le_add_left n₀ m))

theorem reads_step₂ {task task' task'' : Task} {ts' ts'' : List Token}
    {y z : Expression × List Token} (h : Reads task' ts' y) (h' : Reads task'' ts'' z)
    (hstep : ∀ n, read n task' ts' = some y → read n task'' ts'' = some z →
      read (n + 1) task ts = some x) : Reads task ts x := by
  obtain ⟨n₀, hn⟩ := h
  obtain ⟨m₀, hm⟩ := h'
  refine ⟨max n₀ m₀ + 1, fun n hle => ?_⟩
  obtain ⟨i, rfl⟩ := Nat.exists_eq_add_of_le' hle
  exact hstep (i + max n₀ m₀) (hn _ (le_trans (Nat.le_max_left _ _) (Nat.le_add_left _ i)))
    (hm _ (le_trans (Nat.le_max_right _ _) (Nat.le_add_left _ i)))

theorem reads_start (hone : k ≠ 1) (hk : k < 14) (h : Reads (.start (k + 1)) ts (l, rest))
    (hmore : Reads (.more k l) rest x) : Reads (.start k) ts x := by
  refine reads_step₂ h hmore fun n hn hmore => ?_
  rw [read, if_neg hone, if_pos hk, hn]
  exact hmore

def goesOn (k : ℕ) (t : Token) : Bool :=
  t == word ":=" || t == word "::" || t == word "(" || (k == 0 && t == word ",") ||
    (decide (k ≤ 2) && t == word "?") ||
    allOperations.any fun op => decide (k ≤ op.level) && t == .literal op.symbol

def Stops (k : ℕ) (rest : List Token) : Prop := ∀ t ∈ rest.head?, goesOn k t = false

theorem Stops.mono {m : ℕ} (hkm : k ≤ m) (h : Stops k rest) : Stops m rest := by
  intro t ht
  have hstop := h t ht
  simp only [goesOn, Bool.or_eq_false_iff, Bool.and_eq_false_iff, List.any_eq_false] at hstop ⊢
  obtain ⟨⟨⟨hwords, hcomma⟩, hcond⟩, hops⟩ := hstop
  refine ⟨⟨⟨hwords, hcomma.imp_left ?_⟩, hcond.imp_left ?_⟩, fun op hop => ?_⟩
  · simp only [beq_eq_false_iff_ne]
    omega
  · simp only [decide_eq_false_iff_not]
    omega
  · have h := hops op hop
    simp only [Bool.and_eq_true, decide_eq_true_eq, not_and] at h ⊢
    exact fun hle => h (le_trans hkm hle)

theorem stops_nil : Stops k [] := fun _ h => by cases h

theorem stops_cons {t : Token} (h : goesOn k t = false) : Stops k (t :: rest) := by
  intro u hu
  obtain rfl : t = u := by simpa using hu
  exact h

theorem operationAt_symbol (op : BinaryOperation) : operationAt op.level op.symbol = some op := by
  cases op <;> rfl

theorem of_operationAt {s : QString} {op : BinaryOperation} (h : operationAt k s = some op) :
    op.level = k ∧ op.symbol = s := by
  simpa using List.find?_some h

theorem mem_allOperations (op : BinaryOperation) : op ∈ allOperations := by
  cases op <;> decide

/-- The operator is of its own level and of no higher one. -/
theorem stops_symbol (op : BinaryOperation) :
    Stops (op.level + 1) (.literal op.symbol :: rest) := by
  refine stops_cons ?_
  cases op <;> rfl

/-- Where the tokens do not go on, the expression is found. -/
theorem reads_more_of_stops (h : Stops k rest) : Reads (.more k l) rest (l, rest) := by
  refine ⟨1, fun n hn => ?_⟩
  obtain ⟨m, rfl⟩ := Nat.exists_eq_add_of_le' hn
  rw [read]
  unfold readMore
  match rest with
  | .literal s :: rest =>
    have hstop := h _ rfl
    simp only [goesOn, Bool.or_eq_false_iff, Bool.and_eq_false_iff, List.any_eq_false] at hstop
    obtain ⟨⟨⟨_, hcomma⟩, hcond⟩, hops⟩ := hstop
    simp only
    split_ifs with hzero hs htwo hs
    · simp [word, hzero, hs] at hcomma
    · rfl
    · simp [word, htwo, hs] at hcond
    · rfl
    · cases hop : operationAt k s with
      | none => rfl
      | some op =>
        obtain ⟨hlevel, hsymbol⟩ := of_operationAt hop
        have hno := hops op (mem_allOperations op)
        simp [hlevel, hsymbol] at hno
  | [] => rfl
  | .identifier _ :: _ => rfl
  | .keyword _ :: _ => rfl
  | .string _ :: _ => rfl
  | .integer _ :: _ => rfl
  | .floatingPoint _ :: _ => rfl

end Steps

section Finding

variable {k : ℕ} {e : Expression} {rest : List Token} {x : Expression × List Token}

def Finds (k : ℕ) (e : Expression) : Prop :=
  ∀ rest, Stops k rest → Reads (.start k) (e.tokens ++ rest) (e, rest)

def Extends (k : ℕ) (e : Expression) : Prop :=
  ∀ rest x, Stops (k + 1) rest → Reads (.more k e) rest x → Reads (.start k) (e.tokens ++ rest) x

theorem Extends.finds (h : Extends k e) : Finds k e := fun rest hstop =>
  h rest _ (hstop.mono (Nat.le_succ k)) (reads_more_of_stops hstop)

theorem Finds.extends (hone : k ≠ 1) (hk : k < 14) (h : Finds (k + 1) e) : Extends k e :=
  fun rest _ hstop hmore => reads_start hone hk (h rest hstop) hmore

theorem Name.tokens_eq (n : Name) : ∃ rest, n.tokens = .identifier n.first :: rest ∧
    ∀ t ∈ rest.head?, t = word "::" := by
  refine ⟨_, rfl, ?_⟩
  cases n.rest with
  | nil => simp
  | cons x xs => simp

/-- An expression that is no assignment does not start like one. -/
theorem assignment_ne {x : QString} {t : Token} {more : List Token} (he : e.Parses)
    (hlevel : 2 ≤ e.level) (hstart : e.tokens ++ rest = .identifier x :: t :: more) :
    t ≠ word ":=" ∨ e = .identifier x := by
  induction e generalizing t rest more with
  | identifier name =>
    have hname := (List.cons.inj hstart).1
    simp only [Token.identifier.injEq] at hname
    exact Or.inr (by rw [hname])
  | boolean value => cases value <;> cases hstart
  | string value => cases hstart
  | integer value => cases hstart
  | floatingPoint text => cases hstart
  | unary op e _ => cases hstart
  | binary op l r ihl _ =>
    rw [Expression.tokens, List.append_assoc] at hstart
    have hl : 2 ≤ l.level :=
      le_trans (le_trans (Nat.le_succ 2) op.three_le_level) he.1.2
    rcases ihl he.1.1 hl hstart with h | rfl
    · exact Or.inl h
    · obtain rfl := (List.cons.inj (List.cons.inj hstart).2).1
      exact Or.inl (by cases op <;> decide)
  | tildeEqual l r => exact absurd he id
  | conditional c y z ihc _ _ =>
    rw [Expression.tokens, List.append_assoc] at hstart
    rcases ihc he.1.1 he.1.2 hstart with h | rfl
    · exact Or.inl h
    · obtain rfl := (List.cons.inj (List.cons.inj hstart).2).1
      exact Or.inl (by decide)
  | assignment l e | comma l e => exact absurd hlevel (by simp [Expression.level])
  | paren l => cases hstart
  | call name l _ =>
    obtain ⟨more', hname, hhead⟩ := name.tokens_eq
    rw [Expression.tokens, hname, List.cons_append, List.cons_append] at hstart
    have htail := (List.cons.inj hstart).2
    cases more' with
    | nil =>
      obtain rfl := (List.cons.inj htail).1
      exact Or.inl (by decide)
    | cons u us =>
      obtain rfl := (List.cons.inj htail).1
      exact Or.inl (by rw [hhead u rfl]; decide)
  | callEmpty name =>
    obtain ⟨more', hname, hhead⟩ := name.tokens_eq
    rw [Expression.tokens, hname, List.cons_append, List.cons_append] at hstart
    have htail := (List.cons.inj hstart).2
    cases more' with
    | nil =>
      obtain rfl := (List.cons.inj htail).1
      exact Or.inl (by decide)
    | cons u us =>
      obtain rfl := (List.cons.inj htail).1
      exact Or.inl (by rw [hhead u rfl]; decide)

theorem Finds.assignment (he : e.Parses) (hlevel : 2 ≤ e.level) (h : Finds 2 e) : Finds 1 e := by
  intro rest hstop
  refine reads_step (h rest (hstop.mono (Nat.le_succ 1))) fun n hn => ?_
  rw [read, if_pos rfl]
  generalize hts : e.tokens ++ rest = ts at hn
  unfold readAssignment
  match ts, hts with
  | .identifier x :: t :: more, hts =>
    have ht : t ≠ word ":=" := by
      rcases assignment_ne he hlevel hts with h | rfl
      · exact h
      · rintro rfl
        have hrest := (List.cons.inj hts).2
        have hgoes := hstop (word ":=") (by rw [show rest = word ":=" :: more from hrest]; rfl)
        exact absurd hgoes (by decide)
    simp only [if_neg ht]
    exact hn
  | [.identifier _], _ => exact hn
  | [], _ => exact hn
  | .keyword _ :: _, _ => exact hn
  | .string _ :: _, _ => exact hn
  | .integer _ :: _, _ => exact hn
  | .floatingPoint _ :: _, _ => exact hn
  | .literal _ :: _, _ => exact hn

def FindsOwn (e : Expression) : Prop :=
  if e.level = 1 ∨ e.level = 14 then Finds e.level e else Extends e.level e

/-- And then at every lower one. -/
theorem FindsOwn.finds (he : e.Parses) (h : FindsOwn e) :
    ∀ k ≤ e.level, Finds k e ∧ (k ≠ 1 → k < 14 → Extends k e) := by
  have hdown : ∀ d k, k + d = e.level → Finds k e ∧ (k ≠ 1 → k < 14 → Extends k e) := by
    intro d
    induction d with
    | zero =>
      rintro k hk
      obtain rfl : k = e.level := hk
      unfold FindsOwn at h
      split_ifs at h with hown
      · exact ⟨h, fun hone hlt => absurd hown (by omega)⟩
      · exact ⟨h.finds, fun _ _ => h⟩
    | succ d ih =>
      intro k hk
      obtain ⟨hfinds, -⟩ := ih (k + 1) (by omega)
      have hle := e.level_le
      by_cases hone : k = 1
      · subst hone
        exact ⟨hfinds.assignment he (by omega), fun hne => absurd rfl hne⟩
      · have hextends := hfinds.extends hone (by omega)
        exact ⟨hextends.finds, fun _ _ => hextends⟩
  intro k hk
  exact hdown (e.level - k) k (by omega)

theorem reads_more_binary {op : BinaryOperation} {l r : Expression} (hr : Finds (op.level + 1) r)
    (hstop : Stops (op.level + 1) rest)
    (hmore : Reads (.more op.level (.binary op l r)) rest x) :
    Reads (.more op.level l) (.literal op.symbol :: (r.tokens ++ rest)) x := by
  have hlevel : op.level ≠ 0 ∧ op.level ≠ 2 := by cases op <;> decide
  refine reads_step₂ (hr rest hstop) hmore fun n hn hmore => ?_
  rw [read]
  unfold readMore
  simp only [if_neg hlevel.1, if_neg hlevel.2, operationAt_symbol, hn]
  exact hmore

theorem reads_more_comma {l r : Expression} (hr : Finds 1 r) (hstop : Stops 1 rest)
    (hmore : Reads (.more 0 (.comma l r)) rest x) :
    Reads (.more 0 l) (word "," :: (r.tokens ++ rest)) x := by
  refine reads_step₂ (hr rest hstop) hmore fun n hn hmore => ?_
  rw [read]
  unfold readMore word
  simp only [if_true, hn]
  exact hmore

theorem stops_colon : Stops 1 (word ":" :: rest) := stops_cons (by decide)

theorem stops_paren : Stops 0 (word ")" :: rest) := stops_cons (by decide)

theorem reads_more_conditional {c y z : Expression} (hy : Finds 1 y) (hz : Finds 3 z)
    (hstop : Stops 3 rest)
    (hmore : Reads (.more 2 (.conditional c y z)) rest x) :
    Reads (.more 2 c) (word "?" :: (y.tokens ++ word ":" :: (z.tokens ++ rest))) x := by
  obtain ⟨n₀, hn⟩ := hy (word ":" :: (z.tokens ++ rest)) stops_colon
  obtain ⟨m₀, hm⟩ := hz rest hstop
  obtain ⟨i₀, hi⟩ := hmore
  refine ⟨max n₀ (max m₀ i₀) + 1, fun n hle => ?_⟩
  obtain ⟨j, rfl⟩ := Nat.exists_eq_add_of_le' hle
  have hthen := hn (j + max n₀ (max m₀ i₀)) (by omega)
  have helse := hm (j + max n₀ (max m₀ i₀)) (by omega)
  have hrest := hi (j + max n₀ (max m₀ i₀)) (by omega)
  rw [← Nat.add_assoc, read]
  unfold readMore word readConditional at *
  simp only [if_neg (show ¬ (2 = 0) by decide), if_true]
  rw [hthen]
  simp only [Option.bind_some, word, if_true]
  rw [helse]
  exact hrest

end Finding

section Primary

variable {e l : Expression} {rest : List Token}

theorem unaryAt_symbol (op : UnaryOperation) : unaryAt op.symbol = some op := by
  cases op <;> rfl

theorem readNames_of_stops {k : ℕ} (h : Stops k rest) : readNames rest = ([], rest) := by
  unfold readNames
  split
  next s x more =>
    have hs : s ≠ ascii "::" := by
      rintro rfl
      exact absurd (h (word "::") rfl) (by simp [goesOn])
    rw [if_neg hs]
  next => rfl

theorem readNames_names (names : List QString) (rest : List Token) :
    readNames ((names.flatMap fun x => [word "::", .identifier x]) ++ word "(" :: rest) =
      (names, word "(" :: rest) := by
  induction names with
  | nil =>
    unfold readNames
    split
    next s x more heq =>
      have hs : s ≠ ascii "::" := by
        rintro rfl
        exact absurd (List.cons.inj heq).1 (by decide)
      rw [if_neg hs]
      exact congrArg _ heq.symm
    next => rfl
  | cons x xs ih =>
    simp only [List.flatMap_cons, List.cons_append, List.nil_append]
    change readNames (.literal (ascii "::") :: .identifier x :: _) = _
    rw [readNames, if_pos rfl, ih]

/-- No list starts with the parenthesis after it. -/
theorem tokens_ne_paren (he : e.Parses) (rest : List Token) :
    ∃ t more, e.tokens ++ rest = t :: more ∧ t ≠ word ")" := by
  induction e generalizing rest with
  | identifier name => exact ⟨_, _, rfl, by simp [word]⟩
  | boolean value => cases value <;> exact ⟨_, _, rfl, by simp [word]⟩
  | string value | integer value => exact ⟨_, _, rfl, by simp [word]⟩
  | floatingPoint text => exact ⟨_, _, rfl, by simp [word]⟩
  | unary op e _ => exact ⟨_, _, rfl, by cases op <;> decide⟩
  | binary op l r ihl _ =>
    rw [Expression.tokens, List.append_assoc]
    exact ihl he.1.1 _
  | tildeEqual l r => exact absurd he id
  | conditional c y z ihc _ _ =>
    rw [Expression.tokens, List.append_assoc]
    exact ihc he.1.1 _
  | assignment l e =>
    obtain ⟨⟨name, rfl⟩, -⟩ := he
    exact ⟨_, _, rfl, by simp [word]⟩
  | comma l e ihl _ =>
    rw [Expression.tokens, List.append_assoc]
    exact ihl he.1 _
  | paren l => exact ⟨_, _, rfl, by decide⟩
  | call name l => exact ⟨_, _, rfl, by simp [word]⟩
  | callEmpty name => exact ⟨_, _, rfl, by simp [word]⟩

/-- A list is found with the parenthesis after it. -/
theorem readList_eq {n : ℕ} {make : Expression → Expression}
    (h : read n (.start 0) (l.tokens ++ word ")" :: rest) = some (l, word ")" :: rest)) :
    readList (read n) make (l.tokens ++ word ")" :: rest) = some (make l, rest) := by
  unfold readList
  rw [h]
  simp

theorem read_unary_start (n : ℕ) (ts : List Token) :
    read (n + 1) (.start 14) ts = readUnary (read n) ts := rfl

theorem finds_paren (hl : Finds 0 l) : Finds 14 (.paren l) := by
  intro rest _
  have htokens : (Expression.paren l).tokens ++ rest =
      word "(" :: (l.tokens ++ word ")" :: rest) := by
    simp [Expression.tokens]
  rw [htokens]
  refine reads_step (hl (word ")" :: rest) stops_paren) fun n hn => ?_
  rw [read_unary_start]
  exact readList_eq hn

theorem finds_call (name : Name) (hparses : l.Parses) (hl : Finds 0 l) :
    Finds 14 (.call name l) := by
  intro rest _
  have htokens : (Expression.call name l).tokens ++ rest = .identifier name.first ::
      ((name.rest.flatMap fun x => [word "::", .identifier x]) ++
        word "(" :: (l.tokens ++ word ")" :: rest)) := by
    simp [Expression.tokens, Name.tokens]
  rw [htokens]
  refine reads_step (hl (word ")" :: rest) stops_paren) fun n hn => ?_
  rw [read_unary_start]
  unfold readUnary
  simp only [readNames_names]
  obtain ⟨t, more, heq, hne⟩ := tokens_ne_paren hparses (word ")" :: rest)
  have hhead : (l.tokens ++ word ")" :: rest).head? ≠ some (word ")") := by
    rw [heq]
    simpa using hne
  simp only [if_true, if_neg hhead]
  exact readList_eq hn

theorem finds_callEmpty (name : Name) : Finds 14 (.callEmpty name) := by
  intro rest _
  have htokens : (Expression.callEmpty name).tokens ++ rest = .identifier name.first ::
      ((name.rest.flatMap fun x => [word "::", .identifier x]) ++
        word "(" :: word ")" :: rest) := by
    simp [Expression.tokens, Name.tokens]
  rw [htokens]
  refine ⟨1, fun n hn => ?_⟩
  obtain ⟨m, rfl⟩ := Nat.exists_eq_add_of_le' hn
  rw [read_unary_start]
  unfold readUnary
  simp [readNames_names]

theorem finds_identifier (x : QString) : Finds 14 (.identifier x) := by
  intro rest hstop
  refine ⟨1, fun n hn => ?_⟩
  obtain ⟨m, rfl⟩ := Nat.exists_eq_add_of_le' hn
  rw [read_unary_start]
  change readUnary (read m) (.identifier x :: rest) = _
  unfold readUnary
  simp only [readNames_of_stops hstop]
  cases rest with
  | nil => rfl
  | cons t more =>
    have ht : t ≠ word "(" := by
      rintro rfl
      exact absurd (hstop (word "(") rfl) (by simp [goesOn])
    simp only [if_neg ht]

theorem finds_unary (op : UnaryOperation) (he : Finds 14 e) : Finds 14 (.unary op e) := by
  intro rest hstop
  refine reads_step (he rest hstop) fun n hn => ?_
  rw [read_unary_start]
  change readUnary (read n) (.literal op.symbol :: (e.tokens ++ rest)) = _
  unfold readUnary
  simp only [unaryAt_symbol, hn]
  rfl

theorem finds_literal {t : Token} (htokens : e.tokens = [t])
    (hread : ∀ n rest, readUnary (read n) (t :: rest) = some (e, rest)) : Finds 14 e := by
  intro rest _
  refine ⟨1, fun n hn => ?_⟩
  obtain ⟨m, rfl⟩ := Nat.exists_eq_add_of_le' hn
  rw [read_unary_start, htokens]
  exact hread m rest

end Primary

theorem finds_of_parses {e : Expression} (he : e.Parses) :
    ∀ k ≤ e.level, Finds k e ∧ (k ≠ 1 → k < 14 → Extends k e) := by
  induction e with
  | identifier name => exact FindsOwn.finds he (finds_identifier name)
  | boolean value =>
    cases value <;> exact FindsOwn.finds he (finds_literal rfl fun _ _ => rfl)
  | string value | integer value => exact FindsOwn.finds he (finds_literal rfl fun _ _ => rfl)
  | floatingPoint text => exact FindsOwn.finds he (finds_literal rfl fun _ _ => rfl)
  | unary op e ih => exact FindsOwn.finds he (finds_unary op (ih he.1 14 he.2).1)
  | binary op l r ihl ihr =>
    have hop : op.level ≠ 1 ∧ op.level < 14 := by cases op <;> decide
    have hnot :
        ¬ ((Expression.binary op l r).level = 1 ∨ (Expression.binary op l r).level = 14) := by
      simp only [Expression.level]
      omega
    refine FindsOwn.finds he ?_
    unfold FindsOwn
    rw [if_neg hnot]
    intro rest x hstop hmore
    rw [Expression.tokens, List.append_assoc]
    refine (ihl he.1.1 op.level he.1.2).2 hop.1 hop.2 _ x (stops_symbol op) ?_
    exact reads_more_binary (ihr he.2.1 _ he.2.2).1 hstop hmore
  | tildeEqual l r => exact absurd he id
  | conditional c y z ihc ihy ihz =>
    refine FindsOwn.finds he ?_
    unfold FindsOwn
    rw [if_neg (by simp [Expression.level])]
    intro rest x hstop hmore
    have htokens : (Expression.conditional c y z).tokens ++ rest =
        c.tokens ++ word "?" :: (y.tokens ++ word ":" :: (z.tokens ++ rest)) := by
      simp [Expression.tokens]
    rw [htokens]
    refine (ihc he.1.1 2 he.1.2).2 (by decide) (by decide) _ x (stops_cons (by decide)) ?_
    exact reads_more_conditional (ihy he.2.1.1 1 he.2.1.2).1 (ihz he.2.2.1 3 he.2.2.2).1 hstop hmore
  | assignment l e _ ihe =>
    obtain ⟨⟨name, rfl⟩, heparses, helevel⟩ := he
    refine FindsOwn.finds ⟨⟨name, rfl⟩, heparses, helevel⟩ ?_
    intro rest hstop
    refine reads_step ((ihe heparses 2 helevel).1 rest (hstop.mono (Nat.le_succ 1))) fun n hn => ?_
    change read (n + 1) (.start 1) (.identifier name :: word ":=" :: (e.tokens ++ rest)) = _
    rw [read, if_pos rfl]
    simp only [readAssignment, if_true, hn]
    rfl
  | comma l e ihl ihe =>
    refine FindsOwn.finds he ?_
    unfold FindsOwn
    rw [if_neg (by simp [Expression.level])]
    intro rest x hstop hmore
    rw [Expression.tokens, List.append_assoc]
    refine (ihl he.1 0 (Nat.zero_le _)).2 (by decide) (by decide) _ x (stops_cons (by decide)) ?_
    exact reads_more_comma (ihe he.2.1 1 he.2.2).1 hstop hmore
  | paren l ih => exact FindsOwn.finds he (finds_paren (ih he 0 (Nat.zero_le _)).1)
  | call name l ih => exact FindsOwn.finds he (finds_call name he (ih he 0 (Nat.zero_le _)).1)
  | callEmpty name => exact FindsOwn.finds he (finds_callEmpty name)

theorem tokens_inj {e e' : Expression} (he : e.Parses) (he' : e'.Parses) (hlevel : 1 ≤ e.level)
    (hlevel' : 1 ≤ e'.level) (h : e.tokens = e'.tokens) : e = e' := by
  have hread := (finds_of_parses he 1 hlevel).1 [] stops_nil
  have hread' := (finds_of_parses he' 1 hlevel').1 [] stops_nil
  rw [h] at hread
  exact congrArg Prod.fst (hread.unique hread')

end SnapCpp.Expr
