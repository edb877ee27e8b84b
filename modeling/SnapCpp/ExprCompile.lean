import SnapCpp.ExprReading

/-!
What `compile_expression()` returns. The only left recursion of the grammar is direct and every
rule has a token at least, so the parser returns. The node is the one of the expression that is
written, and there is none where no expression is.
-/
namespace SnapCpp.Expr

open SnapCpp.Parser (Token Item Rule Grammar Derives Derivable Solid LeftCorner)

theorem grammar_solid : Solid grammar := by
  intro c r hr
  cases c with
  | binary b =>
    simp only [grammar, rules, List.mem_cons, List.mem_map] at hr
    rcases hr with rfl | ⟨op, _, rfl⟩ <;> simp [Rule.items]
  | _ =>
    simp only [grammar, rules, List.mem_cons, List.not_mem_nil, or_false] at hr
    rcases hr with rfl | rfl | rfl | rfl | rfl | rfl | rfl | rfl | rfl | rfl | rfl | rfl | rfl <;>
      decide

def rank : Choices → ℕ
  | .qualifiedName => 0
  | .unaryExpr => 1
  | .binary b => 15 - b.level
  | .conditionalExpr => 13
  | .assignment => 14
  | .expr => 15
  | .exprList => 16

theorem rank_next (b : BinaryChoices) : rank b.next < rank (.binary b) := by
  cases b <;> decide

theorem rank_lt {c d : Choices} {r : Rule Choices} (hr : r ∈ grammar.rules c)
    (hfirst : r.first = .choices d) (hne : d ≠ c) : rank d < rank c := by
  cases c with
  | binary b =>
    simp only [grammar, rules, List.mem_cons, List.mem_map] at hr
    rcases hr with rfl | ⟨op, _, rfl⟩
    · cases hfirst
      exact rank_next b
    · cases hfirst
      exact absurd rfl hne
  | _ =>
    simp only [grammar, rules, List.mem_cons, List.not_mem_nil, or_false] at hr
    rcases hr with rfl | rfl | rfl | rfl | rfl | rfl | rfl | rfl | rfl | rfl | rfl | rfl | rfl <;>
      cases hfirst <;> first | decide | exact absurd rfl hne

theorem grammar_wellFounded : WellFounded (fun d c => LeftCorner grammar c d) := by
  refine Subrelation.wf (fun hcorner => ?_) (measure rank).wf
  obtain ⟨hne, r, hr, hfirst⟩ := grammar_solid.first_of_leftCorner hcorner
  exact rank_lt hr hfirst hne

section Results

variable {u : List Token} {data : Option ExprNode} {e : Expression}

def Compiles (u : List Token) (data : Option ExprNode) : Prop :=
  ∃ n, ∀ turns, n ≤ turns → compileExpression turns u = some data

theorem Compiles.unique {data' : Option ExprNode} (h : Compiles u data) (h' : Compiles u data') :
    data = data' := by
  obtain ⟨n, hn⟩ := h
  obtain ⟨m, hm⟩ := h'
  have hleft := hn (max n m) (Nat.le_max_left n m)
  have hright := hm (max n m) (Nat.le_max_right n m)
  exact Option.some.inj (hleft.symm.trans hright)

/-- Something is returned: the data of a derivation, and no node where nothing is derived. -/
theorem exists_compiles (u : List Token) : ∃ data, Compiles u data ∧
    (Derivable grammar [.choices .expr] u → Written 1 u data) ∧
    (¬ Derivable grammar [.choices .expr] u → data = none) := by
  have hends := fun s : Parser.Stack Choices =>
    Parser.ends grammar_wellFounded grammar_solid.advancing s
  obtain ⟨n, result, hresult⟩ := Parser.exists_parseFrom hends u [.root .expr]
  obtain ⟨hsound, hiff⟩ := Parser.parse_spec (hresult n (Nat.le_refl n))
  refine ⟨result.bind fun t => (reduced t).data, ⟨n, fun turns hturns => ?_⟩, ?_, ?_⟩
  · have hparse : grammar.parse turns .expr u = some result := hresult turns hturns
    unfold compileExpression
    rw [hparse]
    rfl
  · intro hderivable
    obtain ⟨t, rfl⟩ := Option.isSome_iff_exists.mp (hiff.mpr hderivable)
    exact written_of_derives (hsound t rfl)
  · intro hnot
    have hnone : result = none := by
      by_contra hsome
      exact hnot (hiff.mp (Option.isSome_iff_ne_none.mpr hsome))
    rw [hnone]
    rfl

theorem derivable_of_parses (he : e.Parses) (hlevel : 1 ≤ e.level) :
    Derivable grammar [.choices .expr] e.tokens :=
  derivable_of_le hlevel e.level_le (Expression.derivable_level he)

theorem compiles_tokens (he : e.Parses) (hlevel : 1 ≤ e.level) :
    Compiles e.tokens (some e.node) := by
  obtain ⟨data, hcompiles, hwritten, -⟩ := exists_compiles e.tokens
  obtain ⟨e', he', hlevel', htokens, rfl⟩ := hwritten (derivable_of_parses he hlevel)
  obtain rfl := tokens_inj he' he hlevel' hlevel htokens
  exact hcompiles

/-- And nothing else is compiled. -/
theorem compiles_none (h : ∀ e : Expression, e.Parses → 1 ≤ e.level → e.tokens ≠ u) :
    Compiles u none := by
  obtain ⟨data, hcompiles, hwritten, hnone⟩ := exists_compiles u
  by_cases hderivable : Derivable grammar [.choices .expr] u
  · obtain ⟨e, he, hlevel, htokens, -⟩ := hwritten hderivable
    exact absurd htokens (h e he hlevel)
  · rwa [← hnone hderivable]

end Results

end SnapCpp.Expr
