import SnapCpp.ParserStates

/-!
What the states of the parser stand for. A stack has read tokens when the nodes of its frames
derive them, which every turn of the parser keeps; the other way round, a derivation is followed
by the turns of one stack, with the recursive rules last. So the parser accepts the sequences that
can be derived, and its result is a derivation.
-/
namespace SnapCpp.Parser

variable {C : Type} [DecidableEq C] {G : Grammar C}

section Turns

variable {state after parent : Stack C} {top : Frame C} {t : Token} {item : Item C}
  {items : List (Item C)} {tree : Tree C} {c : C} {i : ℕ} {node : List (Tree C)}

theorem next_moved : (G.moved tree top parent).next = G.nextToken tree (.frame top parent) := by
  unfold Grammar.moved
  cases htail : top.todo.tail with
  | nil => simp [Saturation.Turn.next]
  | cons item items => simp [Saturation.Turn.next, Grammar.nextToken, htail]

theorem mem_recursiveStates : after ∈ G.recursiveStates c tree parent ↔
    ∃ i r, (G.rules c)[i]? = some r ∧ r.first = .choices c ∧
      after = .frame ⟨c, i, r.rest, [tree]⟩ parent := by
  unfold Grammar.recursiveStates
  simp only [List.mem_filterMap, List.mem_zipIdx_iff_getElem?, Prod.exists]
  constructor
  · rintro ⟨r, i, hr, h⟩
    split_ifs at h with hfirst
    exact ⟨i, r, hr, hfirst, (Option.some.inj h).symm⟩
  · rintro ⟨i, r, hr, hfirst, rfl⟩
    exact ⟨r, i, hr, if_pos hfirst⟩

theorem mem_followedStates : after ∈ G.followedStates c state ↔
    ∃ i r, (G.rules c)[i]? = some r ∧ r.first ≠ .choices c ∧
      after = .frame ⟨c, i, r.items, []⟩ state := by
  unfold Grammar.followedStates
  simp only [List.mem_filterMap, List.mem_zipIdx_iff_getElem?, Prod.exists]
  constructor
  · rintro ⟨r, i, hr, h⟩
    split_ifs at h with hfirst
    exact ⟨i, r, hr, hfirst, (Option.some.inj h).symm⟩
  · rintro ⟨i, r, hr, hfirst, rfl⟩
    exact ⟨r, i, hr, if_neg hfirst⟩

def completed (G : Grammar C) (c : C) (tree : Tree C) (parent : Stack C) : List (Stack C) :=
  G.recursiveStates c tree parent ++ G.nextToken tree parent

theorem nextToken_end :
    G.nextToken tree (.frame ⟨c, i, [item], node⟩ parent) =
      completed G c (.node c i (node ++ [tree])) parent := rfl

theorem nextToken_cons (h : items ≠ []) :
    G.nextToken tree (.frame ⟨c, i, item :: items, node⟩ parent) =
      [.frame ⟨c, i, items, node ++ [tree]⟩ parent] := by
  cases items with
  | nil => exact absurd rfl h
  | cons first rest => rfl

theorem follow_choices (h : state.expected = some (.choices c)) :
    Saturation.Next G.follow after state ↔ after ∈ G.followedStates c state := by
  unfold Saturation.Next
  cases state with
  | root start =>
    cases h
    simp [Grammar.follow, Saturation.Turn.next]
  | accept result => cases h
  | frame top parent =>
    obtain ⟨d, i, todo, node⟩ := top
    cases todo with
    | nil => cases h
    | cons item items =>
      cases h
      simp [Grammar.follow, Saturation.Turn.next]

theorem follow_empty :
    Saturation.Next G.follow after (.frame ⟨c, i, .empty :: items, node⟩ parent) ↔
      after ∈ G.nextToken .empty (.frame ⟨c, i, .empty :: items, node⟩ parent) := by
  unfold Saturation.Next
  rw [← next_moved]
  rfl

theorem stable_iff : Saturation.Stable G.follow state ↔
    (∀ d, state.expected ≠ some (.choices d)) ∧ state.expected ≠ some .empty := by
  unfold Saturation.Stable
  cases state with
  | root start => simp [Grammar.follow, Stack.expected]
  | accept result => simp [Grammar.follow, Stack.expected]
  | frame top parent =>
    obtain ⟨d, i, todo, node⟩ := top
    cases todo with
    | nil => simp [Grammar.follow, Stack.expected]
    | cons item items =>
      cases item with
      | choices e => simp [Grammar.follow, Stack.expected]
      | empty =>
        simp only [Grammar.follow, Grammar.moved, Stack.expected, List.tail_cons]
        cases items <;> simp
      | _ => simp [Grammar.follow, Stack.expected]

/-- What the first loop can do with a state. -/
theorem follow_cases (h : Saturation.Next G.follow after state) :
    (∃ d, state.expected = some (.choices d) ∧ after ∈ G.followedStates d state) ∨
      (state.expected = some .empty ∧ after ∈ G.nextToken .empty state) := by
  by_cases hchoices : ∃ d, state.expected = some (.choices d)
  · obtain ⟨d, hd⟩ := hchoices
    exact Or.inl ⟨d, hd, (follow_choices hd).mp h⟩
  · by_cases hempty : state.expected = some .empty
    · cases state with
      | root start => cases hempty
      | accept result => cases hempty
      | frame top parent =>
        obtain ⟨c, i, todo, node⟩ := top
        cases todo with
        | nil => cases hempty
        | cons item items =>
          cases hempty
          exact Or.inr ⟨rfl, follow_empty.mp h⟩
    · have hstable : Saturation.Stable G.follow state :=
        stable_iff.mpr ⟨fun d hd => hchoices ⟨d, hd⟩, hempty⟩
      exact absurd h hstable.not_next

theorem tryToken_next : Saturation.Next (G.tryToken t) after state ↔
    ∃ top parent item, state = .frame top parent ∧ top.todo.head? = some item ∧
      item.accepts t ∧ after ∈ G.nextToken (.token t) state := by
  unfold Saturation.Next
  cases state with
  | root start => simp [Grammar.tryToken, Saturation.Turn.next]
  | accept result => simp [Grammar.tryToken, Saturation.Turn.next]
  | frame top parent =>
    cases htodo : top.todo with
    | nil => simp [Grammar.tryToken, Saturation.Turn.next, htodo]
    | cons item items =>
      by_cases haccepts : item.accepts t
      · simp [Grammar.tryToken, htodo, haccepts, next_moved]
      · simp [Grammar.tryToken, htodo, haccepts, Saturation.Turn.next]

theorem not_stable_tryToken : ¬ Saturation.Stable (G.tryToken t) state := by
  unfold Saturation.Stable
  cases state with
  | root start => simp [Grammar.tryToken]
  | accept result => simp [Grammar.tryToken]
  | frame top parent =>
    cases htodo : top.todo with
    | nil => simp [Grammar.tryToken, htodo]
    | cons item items =>
      by_cases haccepts : item.accepts t
      · simp only [Grammar.tryToken, htodo, haccepts, Grammar.moved, List.tail_cons]
        cases items <;> simp
      · simp [Grammar.tryToken, htodo, haccepts]

end Turns

section Soundness

variable (G) in
inductive Read (start : C) : Stack C → List Token → Prop
  | root : Read start (.root start) []
  | accept {t : Tree C} {u : List Token} : Derives G [.choices start] [t] u →
      Read start (.accept t) u
  | frame {parent : Stack C} {c : C} {i : ℕ} {r : Rule C} {before todo : List (Item C)}
      {node : List (Tree C)} {v u : List Token} :
      Read start parent v → parent.expected = some (.choices c) → (G.rules c)[i]? = some r →
      before ++ todo = r.items → todo ≠ [] → Derives G before node u →
      Read start (.frame ⟨c, i, todo, node⟩ parent) (v ++ u)

variable {start : C} {state after : Stack C} {item : Item C} {tree : Tree C} {u v : List Token}

theorem Read.recursive {c : C} (h : Read G start state v)
    (hexpected : state.expected = some (.choices c)) (htree : Derives G [.choices c] [tree] u)
    (hafter : after ∈ G.recursiveStates c tree state) : Read G start after (v ++ u) := by
  obtain ⟨i, r, hr, hfirst, rfl⟩ := mem_recursiveStates.mp hafter
  have hitems : [.choices c] ++ r.rest = r.items := by rw [Rule.items, hfirst]; rfl
  exact Read.frame h hexpected hr hitems
    (Grammar.rest_ne_nil (List.mem_of_getElem? hr) hfirst) htree

theorem Read.nextToken (h : Read G start state v) (hexpected : state.expected = some item)
    (htree : Derives G [item] [tree] u) (hafter : after ∈ G.nextToken tree state) :
    Read G start after (v ++ u) := by
  induction h generalizing item tree u after with
  | root =>
    cases hexpected
    obtain rfl := List.mem_singleton.mp hafter
    exact Read.accept htree
  | accept _ => cases hexpected
  | @frame parent c i r before todo node v w hparent hchoices hrule hitems htodo hnode ih =>
    obtain ⟨first, items, rfl⟩ := List.exists_cons_of_ne_nil htodo
    obtain rfl : first = item := Option.some.inj hexpected
    have hmore : Derives G (before ++ [first]) (node ++ [tree]) (w ++ u) := hnode.append htree
    rw [List.append_assoc]
    by_cases hend : items = []
    · subst hend
      rw [nextToken_end] at hafter
      have hreduced : Derives G [.choices c] [.node c i (node ++ [tree])] (w ++ u) :=
        Derives.node hrule (hitems ▸ hmore)
      rcases List.mem_append.mp hafter with hafter | hafter
      · exact hparent.recursive hchoices hreduced hafter
      · exact ih hchoices hreduced hafter
    · rw [nextToken_cons hend] at hafter
      obtain rfl := List.mem_singleton.mp hafter
      refine Read.frame hparent hchoices hrule ?_ hend hmore
      rw [List.append_assoc]
      exact hitems

theorem Read.follow (h : Read G start state v) (hnext : Saturation.Next G.follow after state) :
    Read G start after v := by
  rcases follow_cases hnext with ⟨d, hd, hafter⟩ | ⟨hempty, hafter⟩
  · obtain ⟨i, r, hr, _, rfl⟩ := mem_followedStates.mp hafter
    have hframe := Read.frame h hd hr (List.nil_append r.items) (List.cons_ne_nil _ _)
      Derives.nil
    rwa [List.append_nil] at hframe
  · have hread := h.nextToken hempty (Derives.empty Derives.nil) hafter
    rwa [List.append_nil] at hread

theorem Read.tryToken {t : Token} (h : Read G start state v)
    (hnext : Saturation.Next (G.tryToken t) after state) : Read G start after (v ++ [t]) := by
  obtain ⟨top, parent, item, rfl, hitem, haccepts, hafter⟩ := tryToken_next.mp hnext
  exact h.nextToken hitem (Derives.token haccepts Derives.nil) hafter

/-- A result of the parser is a derivation of the tokens. -/
theorem derives_of_parseFrom {turns : ℕ} {current : List (Stack C)} {tokens : List Token}
    (h : ∀ s ∈ current, Read G start s v)
    (hrun : G.parseFrom turns tokens current = some (some tree)) :
    Derives G [.choices start] [tree] (v ++ tokens) := by
  induction tokens generalizing v current with
  | nil =>
    obtain ⟨stable, hstable, hfind⟩ := Option.map_eq_some_iff.mp hrun
    obtain ⟨s, hs, haccepted⟩ := List.exists_of_findSome?_eq_some hfind
    have hread := Saturation.saturate_invariant (Read G start · v) hstable h
      (fun _ _ hs hnext => hs.follow hnext) s hs
    rw [List.append_nil]
    cases hread with
    | root => cases haccepted
    | accept htree =>
      cases haccepted
      exact htree
    | frame => cases haccepted
  | cons t tokens ih =>
    unfold Grammar.parseFrom at hrun
    split_ifs at hrun with hnil
    · cases hrun
    obtain ⟨stable, hstable, hrest⟩ := Option.bind_eq_some_iff.mp hrun
    have hread := Saturation.saturate_invariant (Read G start · v) hstable h
      (fun _ _ hs hnext => hs.follow hnext)
    have hnext : ∀ s ∈ Saturation.pass (G.tryToken t) stable, Read G start s (v ++ [t]) := by
      intro s hs
      obtain ⟨before, hbefore, ⟨hnever, _⟩ | hnext⟩ := Saturation.mem_pass.mp hs
      · exact absurd hnever not_stable_tryToken
      · exact (hread before hbefore).tryToken hnext
    have hderives := ih hnext hrest
    rwa [List.append_assoc] at hderives

end Soundness

section Completeness

variable (G) in
inductive Run : Stack C → List Token → Stack C → Prop
  | refl (s : Stack C) : Run s [] s
  | follow {s t u : Stack C} {w : List Token} :
      Saturation.Next G.follow t s → Run t w u → Run s w u
  | token {s t u : Stack C} {token : Token} {w : List Token} :
      Saturation.Next (G.tryToken token) t s → Run t w u → Run s (token :: w) u

theorem Run.trans {s t u : Stack C} {v w : List Token} (h : Run G s v t) (h' : Run G t w u) :
    Run G s (v ++ w) u := by
  induction h with
  | refl => exact h'
  | follow hnext _ ih => exact Run.follow hnext (ih h')
  | token hnext _ ih => exact Run.token hnext (ih h')

variable {items : List (Item C)} {ts : List (Tree C)} {u : List Token}

variable (G) in
def Reduces (items : List (Item C)) (ts : List (Tree C)) (u : List Token) : Prop :=
  items ≠ [] → ∀ (c : C) (i : ℕ) (node : List (Tree C)) (parent : Stack C),
    ∀ after ∈ completed G c (.node c i (node ++ ts)) parent,
      Run G (.frame ⟨c, i, items, node⟩ parent) u after

theorem reduces_cons {item : Item C} {tree : Tree C} {v : List Token}
    (hfirst : ∀ (c : C) (i : ℕ) (node : List (Tree C)) (parent : Stack C),
      ∀ after ∈ G.nextToken tree (.frame ⟨c, i, item :: items, node⟩ parent),
        Run G (.frame ⟨c, i, item :: items, node⟩ parent) v after)
    (hts : items = [] → ts = [] ∧ u = []) (hrest : Reduces G items ts u) :
    Reduces G (item :: items) (tree :: ts) (v ++ u) := by
  intro _ c i node parent after hafter
  by_cases hend : items = []
  · obtain ⟨rfl, rfl⟩ := hts hend
    subst hend
    rw [List.append_nil]
    refine hfirst c i node parent after ?_
    rwa [nextToken_end]
  · have hmove : Run G (.frame ⟨c, i, item :: items, node⟩ parent) v
        (.frame ⟨c, i, items, node ++ [tree]⟩ parent) :=
      hfirst c i node parent _ (by rw [nextToken_cons hend]; exact List.mem_singleton_self _)
    refine hmove.trans (hrest hend c i (node ++ [tree]) parent after ?_)
    rwa [List.append_assoc]

def Splits (G : Grammar C) (items : List (Item C)) (ts : List (Tree C)) (u : List Token) : Prop :=
  ∀ d rest, items = .choices d :: rest → ∃ tree trees v w, ts = tree :: trees ∧ u = v ++ w ∧
    (∀ state : Stack C, state.expected = some (.choices d) →
      ∀ after ∈ completed G d tree state, Run G state v after) ∧
    Derives G rest trees w ∧ Reduces G rest trees w

theorem Derives.reduces (h : Derives G items ts u) :
    Reduces G items ts u ∧ Splits G items ts u := by
  induction h with
  | nil => exact ⟨fun hne => absurd rfl hne, fun _ _ h => by cases h⟩
  | @token item items t ts u haccepts hrest ih =>
    refine ⟨?_, ?_⟩
    · refine reduces_cons (v := [t]) (fun c i node parent after hafter => ?_) hrest.eq_nil ih.1
      have hnext : Saturation.Next (G.tryToken t) after
          (.frame ⟨c, i, item :: items, node⟩ parent) :=
        tryToken_next.mpr ⟨_, _, item, rfl, rfl, haccepts, hafter⟩
      exact Run.token hnext (Run.refl after)
    · rintro d rest heq
      cases heq
      cases haccepts
  | @empty items ts u hrest ih =>
    refine ⟨?_, ?_⟩
    · refine reduces_cons (v := []) (fun c i node parent after hafter => ?_) hrest.eq_nil ih.1
      exact Run.follow (follow_empty.mpr hafter) (Run.refl after)
    · rintro d rest heq
      cases heq
  | @choices d j r items tokens ts v u hrule htokens hrest ihtokens ih =>
    have hchoices : ∀ state : Stack C, state.expected = some (.choices d) →
        ∀ after ∈ completed G d (.node d j tokens) state, Run G state v after := by
      intro state hexpected after hafter
      by_cases hfirst : r.first = .choices d
      · have hitems : r.items = .choices d :: r.rest := by rw [Rule.items, hfirst]
        obtain ⟨tree, trees, x, y, rfl, rfl, hread, -, hreduces⟩ := ihtokens.2 d r.rest hitems
        have hrecursive : Stack.frame ⟨d, j, r.rest, [tree]⟩ state ∈ completed G d tree state :=
          List.mem_append_left _ (mem_recursiveStates.mpr ⟨j, r, hrule, hfirst, rfl⟩)
        refine (hread state hexpected _ hrecursive).trans ?_
        exact hreduces (Grammar.rest_ne_nil (List.mem_of_getElem? hrule) hfirst) d j [tree] state
          after hafter
      · have hfollowed : Stack.frame ⟨d, j, r.items, []⟩ state ∈ G.followedStates d state :=
          mem_followedStates.mpr ⟨j, r, hrule, hfirst, rfl⟩
        refine Run.follow ((follow_choices hexpected).mpr hfollowed) ?_
        exact ihtokens.1 (List.cons_ne_nil _ _) d j [] state after hafter
    refine ⟨?_, ?_⟩
    · refine reduces_cons (fun c i node parent after hafter => ?_) hrest.eq_nil ih.1
      exact hchoices _ rfl after (List.mem_append_right _ hafter)
    · rintro e rest heq
      cases heq
      exact ⟨_, ts, v, u, rfl, rfl, hchoices, hrest, ih.1⟩

end Completeness

end SnapCpp.Parser
