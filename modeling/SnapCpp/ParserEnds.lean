import SnapCpp.ParserLoops

/-!
When the parser ends. Between two tokens a state follows choices and takes empty tokens, and only
a recursive rule whose other items derive nothing can be reduced again and again. Without such a
rule, and with no left recursion but the direct one, every state has an end, so the parser returns
and accepts exactly the sequences that can be derived.
-/
namespace SnapCpp.Parser

variable {C : Type} [DecidableEq C] {G : Grammar C}

section Ends

variable {state parent : Stack C} {tree : Tree C} {c d : C} {items : List (Item C)}

variable (G) in
/-- No endless sequence of turns of the first loop starts at a state. -/
abbrev Ends (state : Stack C) : Prop := Acc (Saturation.Next G.follow) state

theorem ends_of_stable (h : Saturation.Stable G.follow state) : Ends G state :=
  Acc.intro _ fun _ hnext => absurd hnext h.not_next

theorem ends_frame {i : ℕ} {item : Item C} {node : List (Tree C)}
    (hempty : item = .empty →
      ∀ after ∈ G.nextToken .empty (.frame ⟨c, i, item :: items, node⟩ parent), Ends G after)
    (hchoices : ∀ e, item = .choices e → Ends G (.frame ⟨c, i, item :: items, node⟩ parent)) :
    Ends G (.frame ⟨c, i, item :: items, node⟩ parent) := by
  cases item with
  | choices e => exact hchoices e rfl
  | empty => exact Acc.intro _ fun after hnext => hempty rfl after (follow_empty.mp hnext)
  | _ => exact ends_of_stable (stable_iff.mpr ⟨by simp [Stack.expected], by simp [Stack.expected]⟩)

/-- The rest of a rule has an end over a parent: `hbelow` is about the choices in it that have
nothing before them, and `hreduced` about the states after the rule, if it can derive nothing. -/
theorem ends_rest {i : ℕ} {node : List (Tree C)} (hitems : items ≠ [])
    (hbelow : ∀ front e back, items = front ++ .choices e :: back → Derivable G front [] →
      ∀ state : Stack C, state.expected = some (.choices e) →
        (∀ tree, Derives G [.choices e] [tree] [] → ∀ after ∈ G.nextToken tree state,
          Ends G after) →
        Ends G state)
    (hreduced : ∀ ts, Derives G items ts [] →
      ∀ after ∈ completed G c (.node c i (node ++ ts)) parent, Ends G after) :
    Ends G (.frame ⟨c, i, items, node⟩ parent) := by
  induction items generalizing node with
  | nil => exact absurd rfl hitems
  | cons item rest ih =>
    have hmoved : ∀ tree, Derives G [item] [tree] [] →
        ∀ after ∈ G.nextToken tree (.frame ⟨c, i, item :: rest, node⟩ parent), Ends G after := by
      intro tree htree after hafter
      by_cases hend : rest = []
      · subst hend
        rw [nextToken_end] at hafter
        exact hreduced [tree] htree after hafter
      · rw [nextToken_cons hend] at hafter
        obtain rfl := List.mem_singleton.mp hafter
        refine ih hend (fun front e back heq hfront => ?_) (fun ts hts => ?_)
        · refine hbelow (item :: front) e back (by rw [heq]; rfl) ?_
          obtain ⟨fs, hfs⟩ := hfront
          exact ⟨_, htree.append hfs⟩
        · have hmore := hreduced (tree :: ts) (htree.append hts)
          rwa [List.append_cons] at hmore
    refine ends_frame (fun hempty => ?_) (fun e he => ?_)
    · subst hempty
      exact hmoved .empty (Derives.empty Derives.nil)
    · subst he
      exact hbelow [] e rest rfl ⟨[], Derives.nil⟩ _ rfl hmoved

theorem ends_recursive {i : ℕ} {r : Rule C} (hadvancing : Advancing G) (hr : r ∈ G.rules c)
    (hfirst : r.first = .choices c)
    (hbelow : ∀ front e back, r.rest = front ++ .choices e :: back → Derivable G front [] →
      ∀ state : Stack C, state.expected = some (.choices e) →
        (∀ tree, Derives G [.choices e] [tree] [] → ∀ after ∈ G.nextToken tree state,
          Ends G after) →
        Ends G state) :
    Ends G (.frame ⟨c, i, r.rest, [tree]⟩ parent) :=
  ends_rest (Grammar.rest_ne_nil hr hfirst) hbelow
    fun ts hts => absurd ⟨ts, hts⟩ (hadvancing c r hr hfirst)

/-- A state that expects choices has an end when the states after the choices have one, if these
can derive nothing. The induction is on the choices that follow others on their left. -/
theorem ends_choices (hwf : WellFounded (fun d c => LeftCorner G c d)) (hadvancing : Advancing G)
    (d : C) : ∀ state : Stack C, state.expected = some (.choices d) →
      (∀ tree, Derives G [.choices d] [tree] [] → ∀ after ∈ G.nextToken tree state, Ends G after) →
      Ends G state := by
  induction d using hwf.induction with
  | _ d ih =>
    intro state hexpected hafter
    refine Acc.intro _ fun next hnext => ?_
    obtain ⟨i, r, hrule, hfirst, rfl⟩ := mem_followedStates.mp ((follow_choices hexpected).mp hnext)
    have hr := List.mem_of_getElem? hrule
    refine ends_rest (List.cons_ne_nil _ _) (fun front e back heq hfront => ?_)
      (fun ts hts after hcompleted => ?_)
    · refine ih e ⟨r, hr, front, back, heq, hfront, ?_⟩
      rintro ⟨rfl, rfl⟩
      exact hfirst (List.cons.inj heq).1
    · have hreduced : Derives G [.choices d] [.node d i ts] [] := Derives.node hrule hts
      rcases List.mem_append.mp hcompleted with hrecursive | hparent
      · obtain ⟨j, r', hrule', hfirst', rfl⟩ := mem_recursiveStates.mp hrecursive
        have hr' := List.mem_of_getElem? hrule'
        refine ends_recursive hadvancing hr' hfirst' (fun front e back heq hfront => ?_)
        -- the choices themselves derive nothing here, so they are before the other ones
        refine ih e ⟨r', hr', .choices d :: front, back, ?_, ?_, by simp⟩
        · rw [Rule.items, hfirst', heq]
          rfl
        · obtain ⟨fs, hfs⟩ := hfront
          exact ⟨_, hreduced.append hfs⟩
      · exact hafter _ hreduced after hparent

variable (hwf : WellFounded (fun d c => LeftCorner G c d)) (hadvancing : Advancing G)
include hwf hadvancing

theorem ends_completed {tree : Tree C}
    (hparent : ∀ tree, ∀ after ∈ G.nextToken tree parent, Ends G after) :
    ∀ after ∈ completed G c tree parent, Ends G after := by
  intro after hafter
  rcases List.mem_append.mp hafter with hrecursive | hmoved
  · obtain ⟨j, r, hrule, hfirst, rfl⟩ := mem_recursiveStates.mp hrecursive
    exact ends_recursive hadvancing (List.mem_of_getElem? hrule) hfirst
      fun _ e _ _ _ => ends_choices hwf hadvancing e
  · exact hparent tree after hmoved

theorem ends_nextToken (tree : Tree C) : ∀ after ∈ G.nextToken tree state, Ends G after := by
  induction state generalizing tree with
  | root start =>
    intro after hafter
    obtain rfl := List.mem_singleton.mp hafter
    exact ends_of_stable (stable_iff.mpr ⟨by simp [Stack.expected], by simp [Stack.expected]⟩)
  | accept result => exact fun _ hafter => absurd hafter List.not_mem_nil
  | frame top parent ih =>
    obtain ⟨c, i, todo, node⟩ := top
    intro after hafter
    rcases todo with _ | ⟨item, _ | ⟨first, rest⟩⟩
    · exact ends_completed hwf hadvancing (fun tree => ih tree) after hafter
    · exact ends_completed hwf hadvancing (fun tree => ih tree) after hafter
    · rw [nextToken_cons (List.cons_ne_nil _ _)] at hafter
      obtain rfl := List.mem_singleton.mp hafter
      exact ends_rest (List.cons_ne_nil _ _) (fun _ e _ _ _ => ends_choices hwf hadvancing e)
        fun ts _ => ends_completed hwf hadvancing (fun tree => ih tree)

theorem ends (state : Stack C) : Ends G state := by
  refine Acc.intro _ fun after hnext => ?_
  rcases follow_cases hnext with ⟨d, hd, _⟩ | ⟨_, hafter⟩
  · have hstate := ends_choices hwf hadvancing d state hd
      fun tree _ => ends_nextToken hwf hadvancing tree
    exact hstate.inv hnext
  · exact ends_nextToken hwf hadvancing .empty after hafter

end Ends

section Results

variable {start : C} {state : Stack C} {tree : Tree C} {current : List (Stack C)}
  {tokens w : List Token}

theorem Run.reaches {t : Stack C} (h : Run G state [] t) :
    Relation.ReflTransGen (fun a b => Saturation.Next G.follow b a) state t := by
  generalize hw : ([] : List Token) = w at h
  induction h with
  | refl => exact Relation.ReflTransGen.refl
  | follow hnext _ ih => exact Relation.ReflTransGen.head hnext (ih hw)
  | token => cases hw

theorem Run.reaches_token {t : Stack C} {token : Token} (h : Run G state (token :: w) t) :
    ∃ before after, Relation.ReflTransGen (fun a b => Saturation.Next G.follow b a) state before ∧
      Saturation.Next (G.tryToken token) after before ∧ Run G after w t := by
  generalize hw : token :: w = v at h
  induction h with
  | refl => cases hw
  | follow hnext _ ih =>
    obtain ⟨before, after, hreach, htoken, hrun⟩ := ih hw
    exact ⟨before, after, Relation.ReflTransGen.head hnext hreach, htoken, hrun⟩
  | token hnext hrun =>
    cases hw
    exact ⟨_, _, Relation.ReflTransGen.refl, hnext, hrun⟩

theorem stable_of_tryToken {token : Token} {after : Stack C}
    (h : Saturation.Next (G.tryToken token) after state) : Saturation.Stable G.follow state := by
  obtain ⟨top, parent, item, rfl, hitem, haccepts, -⟩ := tryToken_next.mp h
  have hexpected : (Stack.frame top parent).expected = some item := hitem
  refine stable_iff.mpr ⟨fun d hd => ?_, fun hempty => ?_⟩
  · cases hexpected.symm.trans hd
    cases haccepts
  · cases hexpected.symm.trans hempty
    cases haccepts

theorem isSome_of_run {turns : ℕ} {result : Option (Tree C)} (hstate : state ∈ current)
    (h : Run G state tokens (.accept tree))
    (hrun : G.parseFrom turns tokens current = some result) : result.isSome := by
  induction tokens generalizing state current with
  | nil =>
    obtain ⟨stable, hstable, rfl⟩ := Option.map_eq_some_iff.mp hrun
    have haccept : Saturation.Stable G.follow (.accept tree) := rfl
    have hmem := (Saturation.mem_saturate hstable).mpr ⟨haccept, state, hstate, h.reaches⟩
    rw [List.findSome?_isSome_iff]
    exact ⟨_, hmem, rfl⟩
  | cons token tokens ih =>
    unfold Grammar.parseFrom at hrun
    rw [if_neg (List.ne_nil_of_mem hstate)] at hrun
    obtain ⟨stable, hstable, hrest⟩ := Option.bind_eq_some_iff.mp hrun
    obtain ⟨before, after, hreach, htoken, hmore⟩ := h.reaches_token
    have hbefore := (Saturation.mem_saturate hstable).mpr
      ⟨stable_of_tryToken htoken, state, hstate, hreach⟩
    exact ih (Saturation.mem_pass.mpr ⟨before, hbefore, Or.inr htoken⟩) hmore hrest

theorem exists_parseFrom (hends : ∀ s : Stack C, Ends G s) (tokens : List Token)
    (current : List (Stack C)) :
    ∃ n result, ∀ turns, n ≤ turns → G.parseFrom turns tokens current = some result := by
  induction tokens generalizing current with
  | nil =>
    obtain ⟨n, stable, hstable⟩ := Saturation.exists_saturate fun s (_ : s ∈ current) => hends s
    refine ⟨n, stable.findSome? Grammar.accepted, fun turns hturns => ?_⟩
    rw [Grammar.parseFrom, Saturation.saturate_mono hturns hstable]
    rfl
  | cons token tokens ih =>
    by_cases hnil : current = []
    · exact ⟨0, none, fun turns _ => by rw [Grammar.parseFrom, if_pos hnil]⟩
    · obtain ⟨n, stable, hstable⟩ := Saturation.exists_saturate fun s (_ : s ∈ current) => hends s
      obtain ⟨m, result, hresult⟩ := ih (Saturation.pass (G.tryToken token) stable)
      refine ⟨max n m, result, fun turns hturns => ?_⟩
      have hn := Saturation.saturate_mono (le_trans (Nat.le_max_left n m) hturns) hstable
      rw [Grammar.parseFrom, if_neg hnil, hn]
      exact hresult turns (le_trans (Nat.le_max_right n m) hturns)

theorem parse_spec {turns : ℕ} {result : Option (Tree C)}
    (hrun : G.parse turns start tokens = some result) :
    (∀ tree, result = some tree → Derives G [.choices start] [tree] tokens) ∧
      (result.isSome ↔ Derivable G [.choices start] tokens) := by
  have hsound : ∀ tree, result = some tree → Derives G [.choices start] [tree] tokens := by
    rintro tree rfl
    refine derives_of_parseFrom (v := []) (fun s hs => ?_) hrun
    obtain rfl := List.mem_singleton.mp hs
    exact Read.root
  refine ⟨hsound, ?_, ?_⟩
  · intro hsome
    obtain ⟨tree, htree⟩ := Option.isSome_iff_exists.mp hsome
    exact ⟨[tree], hsound tree htree⟩
  · rintro ⟨ts, hts⟩
    obtain ⟨tree, trees, v, w, rfl, rfl, hread, hrest, -⟩ := hts.reduces.2 start [] rfl
    obtain ⟨-, rfl⟩ := hrest.eq_nil rfl
    have haccept : Stack.accept tree ∈ completed G start tree (.root start) :=
      List.mem_append_right _ (List.mem_singleton_self _)
    have hstart := hread (.root start) rfl _ haccept
    exact isSome_of_run (List.mem_singleton_self _) hstart (by rwa [List.append_nil] at hrun)

/-- The parser returns, accepts exactly the sequences that can be derived, and the leaves of its
result are the tokens, with finitely many choices whose left recursion is direct and goes on with
a token. -/
theorem parse_iff_derivable [Finite C] (G : Grammar C) (hdirect : OnlyDirect G)
    (hadvancing : Advancing G) (start : C) (tokens : List Token) :
    ∃ n result, (∀ turns, n ≤ turns → Forest.parse G start turns tokens = some result) ∧
      (result.isSome ↔ Derivable G [.choices start] tokens) ∧
      ∀ tree, result = some tree → tree.leaves = tokens := by
  have hends := fun s : Stack C => ends hdirect.wellFounded hadvancing s
  obtain ⟨n, result, hresult⟩ := exists_parseFrom hends tokens [.root start]
  obtain ⟨hsound, hiff⟩ := parse_spec (hresult n (Nat.le_refl n))
  refine ⟨n, result, fun turns hturns => ?_, hiff, fun tree htree => ?_⟩
  · rw [Forest.parse_eq]
    exact hresult turns hturns
  have hleaves := (hsound tree htree).leaves
  simpa [Tree.leavesAll] using hleaves

def nameList : Grammar Unit where
  rules _ := [⟨.identifier, []⟩, ⟨.choices (), [.literal [44], .identifier]⟩]
  noSelf := by decide

theorem parse_iff_derivable_nameList :
    ∃ n result, (∀ turns, n ≤ turns →
        Forest.parse nameList () turns [.identifier [97], .literal [44], .identifier [98]] =
          some result) ∧
      result.isSome := by
  have hsolid : Solid nameList := by
    intro c r hr
    simp only [nameList, List.mem_cons, List.not_mem_nil, or_false] at hr
    rcases hr with rfl | rfl <;> decide
  have hdirect : OnlyDirect nameList :=
    hsolid.onlyDirect (fun _ => 0) fun _ _ _ _ _ hne => absurd rfl hne
  obtain ⟨n, result, hresult, hiff, -⟩ := parse_iff_derivable nameList hdirect hsolid.advancing ()
    [.identifier [97], .literal [44], .identifier [98]]
  refine ⟨n, result, hresult, hiff.mpr ⟨[.node () 1 [.node () 0 [.token (.identifier [97])],
    .token (.literal [44]), .token (.identifier [98])]], ?_⟩⟩
  have hname : Derives nameList [.identifier] [.token (.identifier [97])] [.identifier [97]] :=
    Derives.token rfl Derives.nil
  have hrest : Derives nameList [.literal [44], .identifier]
      [.token (.literal [44]), .token (.identifier [98])] [.literal [44], .identifier [98]] :=
    Derives.token rfl (Derives.token rfl Derives.nil)
  have hfirst := Derives.choices (G := nameList) (c := ()) (i := 0) rfl hname hrest
  exact Derives.node (i := 1) rfl hfirst

end Results

def emptyEnd : Grammar Unit where
  rules _ := [⟨.identifier, []⟩, ⟨.choices (), [.empty]⟩]
  noSelf := by decide

theorem emptyEnd_onlyDirect : OnlyDirect emptyEnd := by
  have hnone : ∀ c d, ¬ LeftCorner emptyEnd c d := by
    rintro ⟨⟩ ⟨⟩ ⟨r, hr, front, back, heq, -, hself⟩
    have hfront : front ≠ [] := fun h => hself ⟨h, rfl⟩
    have hmem : .choices () ∈ r.rest := by
      obtain ⟨item, rest, rfl⟩ := List.exists_cons_of_ne_nil hfront
      rw [Rule.items, List.cons_append, List.cons.injEq] at heq
      rw [heq.2]
      exact List.mem_append_right _ List.mem_cons_self
    simp only [emptyEnd, List.mem_cons, List.not_mem_nil, or_false] at hr
    rcases hr with rfl | rfl <;> simp at hmem
  intro c h
  cases h with
  | single h => exact hnone _ _ h
  | tail _ h => exact hnone _ _ h

theorem emptyEnd_recursive (tree : Tree Unit) :
    .frame ⟨(), 1, [.empty], [tree]⟩ (.root ()) ∈ completed emptyEnd () tree (.root ()) :=
  List.mem_append_left _ (mem_recursiveStates.mpr ⟨1, ⟨.choices (), [.empty]⟩, rfl, rfl, rfl⟩)

theorem emptyEnd_saturate (turns : ℕ) (current : List (Stack Unit)) (tree : Tree Unit)
    (h : .frame ⟨(), 1, [.empty], [tree]⟩ (.root ()) ∈ current) :
    Saturation.saturate emptyEnd.follow turns current = none := by
  have hnot : ¬ ∀ s ∈ current, Saturation.Stable emptyEnd.follow s := fun hall =>
    (stable_iff.mp (hall _ h)).2 rfl
  induction turns generalizing current tree with
  | zero =>
    unfold Saturation.saturate
    exact if_neg (mt Saturation.all_stays_iff.mp hnot)
  | succ turns ih =>
    rw [Saturation.saturate_succ_of_not hnot]
    have hnext : .frame ⟨(), 1, [.empty], [.node () 1 [tree, .empty]]⟩ (.root ()) ∈
        Saturation.pass emptyEnd.follow current := by
      refine Saturation.mem_pass.mpr ⟨_, h, Or.inr (follow_empty.mpr ?_)⟩
      rw [nextToken_end]
      exact emptyEnd_recursive _
    exact ih _ _ hnext fun hall => (stable_iff.mp (hall _ hnext)).2 rfl

/-- With a grammar whose only left recursion is direct, the parser does not return for a token
that can be derived. -/
theorem emptyEnd_endless : OnlyDirect emptyEnd ∧
    Derivable emptyEnd [.choices ()] [.identifier []] ∧
    ∀ turns, Forest.parse emptyEnd () turns [.identifier []] = none := by
  have hname : Derives emptyEnd [.identifier] [.token (.identifier [])] [.identifier []] :=
    Derives.token rfl Derives.nil
  refine ⟨emptyEnd_onlyDirect, ⟨_, Derives.node (i := 0) rfl hname⟩, fun turns => ?_⟩
  rw [Forest.parse_eq]
  unfold Grammar.parse Grammar.parseFrom
  rw [if_neg (List.cons_ne_nil _ _)]
  refine Option.bind_eq_none_iff.mpr fun stable hstable => ?_
  have hfollowed : Saturation.Next emptyEnd.follow (.frame ⟨(), 0, [.identifier], []⟩ (.root ()))
      (.root ()) :=
    (follow_choices rfl).mpr (mem_followedStates.mpr ⟨0, ⟨.identifier, []⟩, rfl, by decide, rfl⟩)
  have hmem : .frame ⟨(), 0, [.identifier], []⟩ (.root ()) ∈ stable :=
    (Saturation.mem_saturate hstable).mpr ⟨rfl, _, List.mem_singleton_self _,
      Relation.ReflTransGen.single hfollowed⟩
  have htoken : .frame ⟨(), 1, [.empty], [.node () 0 [.token (.identifier [])]]⟩ (.root ()) ∈
      Saturation.pass (emptyEnd.tryToken (.identifier [])) stable := by
    refine Saturation.mem_pass.mpr ⟨_, hmem, Or.inr (tryToken_next.mpr ?_)⟩
    refine ⟨_, _, .identifier, rfl, rfl, rfl, ?_⟩
    rw [nextToken_end]
    exact emptyEnd_recursive _
  unfold Grammar.parseFrom
  rw [emptyEnd_saturate turns _ _ htoken]
  rfl

end SnapCpp.Parser
