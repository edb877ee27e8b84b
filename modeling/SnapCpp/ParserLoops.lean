import SnapCpp.ParserSimulation

/-!
The loops of the parser over the states in memory. Each turn of a loop finds its state as it was
when the copy of the list was made, whatever the turns before it have freed and made; so a pass
over the states is a pass over their stacks, and the parser gives what it gives over the stacks.
-/
namespace SnapCpp.Parser.Forest

variable {C : Type} {G : Grammar C} {start : C} {w w' : Forest C} {s x : ℕ} {state : Stack C}
  {front back ids : List ℕ} {current : List (Stack C)}

section Turns

theorem At.stays (h : At G start w front s back state) :
    Turned G start w w front s back state .stays [] := by
  refine ⟨h.linked, ?_, fun after hafter => ?_, List.Forall₂.nil, ?_,
    fun x hx => absurd hx List.not_mem_nil, fun y after _ htip => htip⟩
  · simpa [place, Saturation.Turn.kept] using h.current
  · obtain rfl := Option.some.inj hafter
    exact h.tip
  · simp [place, Saturation.Turn.kept]

variable [DecidableEq C]

/-- A turn of the first loop, which starts again if the state does not stay. -/
theorem At.follow (h : At G start w front s back state) :
    ∃ w' ids, w.follow G start s = some (w', !Saturation.stays (G.follow state)) ∧
      Turned G start w w' front s back state (G.follow state) ids := by
  have hread := h.tip.2.expected
  by_cases hstable : Saturation.Stable G.follow state
  · obtain ⟨hchoices, hempty⟩ := stable_iff.mp hstable
    have hstays : G.follow state = .stays := hstable
    refine ⟨w, [], ?_, hstays ▸ h.stays⟩
    rw [hstays, Forest.follow, hread]
    cases hexpected : state.expected with
    | none => rfl
    | some item =>
      cases item with
      | choices d => exact absurd hexpected (hchoices d)
      | empty => exact absurd hexpected hempty
      | _ => rfl
  by_cases hchoices : ∃ d, state.expected = some (.choices d)
  · obtain ⟨d, hexpected⟩ := hchoices
    have hturn : G.follow state = .becomes none (G.followedStates d state) := by
      cases state with
      | root first =>
        cases hexpected
        rfl
      | accept result => cases hexpected
      | frame top parent =>
        obtain ⟨items, htodo⟩ := List.head?_eq_some_iff.mp hexpected
        simp only [Grammar.follow, htodo]
    obtain ⟨w', ids, hrun, hturned⟩ := h.followChoices hexpected
    refine ⟨w', ids, ?_, hturn ▸ hturned⟩
    rw [Forest.follow, hread, hexpected, hturn]
    simp only [hrun, Option.map_some, Saturation.stays, Bool.not_false]
  · have hexpected : state.expected = some .empty := by
      by_contra hempty
      exact hstable (stable_iff.mpr ⟨fun d hd => hchoices ⟨d, hd⟩, hempty⟩)
    have hturn : G.follow state = moving G .empty state := by
      cases state with
      | root first => cases hexpected
      | accept result => cases hexpected
      | frame top parent =>
        obtain ⟨items, htodo⟩ := List.head?_eq_some_iff.mp hexpected
        simp only [Grammar.follow, htodo, moving]
    have hstays : Saturation.stays (G.follow state) = false := by
      rw [Bool.eq_false_iff]
      exact fun hstays => hstable (Saturation.stays_iff.mp hstays)
    obtain ⟨w', ids, hrun, hturned⟩ := h.advance (by rw [hexpected]; simp) .empty
    refine ⟨w', ids, ?_, hturn ▸ hturned⟩
    rw [Forest.follow, hread, hexpected, hstays]
    simp only [hrun, Option.map_some, Bool.not_false]

/-- A turn of the second loop. -/
theorem At.tryToken (h : At G start w front s back state)
    (hstable : Saturation.Stable G.follow state) (t : Token) :
    ∃ w' ids, w.tryToken G start t s = some w' ∧
      Turned G start w w' front s back state (G.tryToken t state) ids := by
  have hread := h.tip.2.expected
  obtain ⟨hchoices, hempty⟩ := stable_iff.mp hstable
  cases hexpected : state.expected with
  | none =>
    have hturn : G.tryToken t state = .becomes none [] := by
      cases state with
      | root first => rfl
      | accept result => rfl
      | frame top parent =>
        have htodo : top.todo = [] := List.head?_eq_none_iff.mp hexpected
        simp only [Grammar.tryToken, htodo]
    obtain ⟨w', hrun, hturned⟩ := h.free
    refine ⟨w', [], ?_, hturn ▸ hturned⟩
    rw [Forest.tryToken, hread, hexpected]
    exact hrun
  | some item =>
    have hforest : w.tryToken G start t s =
        if item.accepts t then w.advance G start s (.token t) else w.free s := by
      rw [Forest.tryToken, hread, hexpected]
      cases item with
      | choices d => exact absurd hexpected (hchoices d)
      | empty => exact absurd hexpected hempty
      | _ => rfl
    have hturn : G.tryToken t state =
        if item.accepts t then moving G (.token t) state else .becomes none [] := by
      cases state with
      | root first => exact absurd hexpected (by simpa [Stack.expected] using hchoices first)
      | accept result => cases hexpected
      | frame top parent =>
        obtain ⟨items, htodo⟩ := List.head?_eq_some_iff.mp hexpected
        simp only [Grammar.tryToken, htodo, moving]
    rw [hforest, hturn]
    split_ifs with haccepts
    · exact h.advance (by rw [hexpected]; simp) (.token t)
    · obtain ⟨w', hrun, hturned⟩ := h.free
      exact ⟨w', [], hrun, hturned⟩

end Turns

section Passes

variable (G start) in
/-- The current states are those of the stacks. -/
structure Running (w : Forest C) (current : List (Stack C)) : Prop where
  linked : Linked w
  once : w.current.Nodup
  tips : List.Forall₂ (Tip G start w.heap) w.current current

theorem Running.nil_iff (h : Running G start w current) : w.current = [] ↔ current = [] := by
  rw [← List.length_eq_zero_iff, h.tips.length_eq, List.length_eq_zero_iff]

theorem rooted_running : Running G start rooted [.root start] := by
  have halone : ∀ x, ((rooted : Forest C).heap x).fParent = none ∧
      ((rooted : Forest C).heap x).fChildren = [] := by
    intro x
    unfold rooted
    by_cases hx : x = 0 <;> simp [hx]
  refine ⟨⟨fun x p => ?_, fun p => ?_, fun x _ => halone x, fun x hx => ?_,
    fun x hx => absurd hx List.not_mem_nil, List.nodup_nil⟩, List.nodup_singleton 0,
    List.Forall₂.cons ⟨rfl, Stands.root rfl⟩ List.Forall₂.nil⟩
  · rw [(halone x).1, (halone p).2]
    simp
  · rw [(halone p).2]
    exact List.nodup_nil
  · by_contra hlt
    have hne : x ≠ 0 := by
      rintro rfl
      exact hlt Nat.one_pos
    exact hx (by simp [rooted, hne])

theorem exists_tip (h : List.Forall₂ (Tip G start w.heap) ids current) (hx : x ∈ ids) :
    ∃ state, Tip G start w.heap x state := by
  have hflip : List.Forall₂ (fun state x => Tip G start w.heap x state) current ids := h.flip
  obtain ⟨state, -, htip⟩ := Pieces.exists_of_forall₂ hflip hx
  exact ⟨state, htip⟩

theorem At.once {turn : Saturation.Turn (Stack C)} (h : At G start w front s back state)
    (honce : w.current.Nodup) (hturned : Turned G start w w' front s back state turn ids) :
    w'.current.Nodup := by
  have hplace : (place s turn state).Sublist [s] := by
    unfold place
    cases turn.kept state <;> simp
  have hold : (front ++ place s turn state ++ back).Nodup := by
    rw [h.current, List.append_cons] at honce
    exact honce.sublist (((List.Sublist.refl front).append hplace).append (List.Sublist.refl back))
  rw [hturned.current]
  refine hold.append (List.nodup_append.mp hturned.once).2.1 fun x hx hx' => ?_
  by_cases hplaced : x ∈ place s turn state
  · exact List.disjoint_of_nodup_append hturned.once hplaced hx'
  · have hother : x ∈ front ++ back := by
      simp only [List.mem_append, hplaced, or_false] at hx ⊢
      exact hx
    obtain ⟨hne, after, htip⟩ := h.others x hother
    exact (hturned.apart x hx').resolve_left hne after htip

variable (G start) in
/-- In the middle of a pass: the states that stay in place, those of the copy that are still to
come, and those that were added. -/
structure Passing (w : Forest C) (front rest back : List ℕ) (kept todo added : List (Stack C)) :
    Prop where
  linked : Linked w
  once : w.current.Nodup
  current : w.current = front ++ (rest ++ back)
  kept : List.Forall₂ (Tip G start w.heap) front kept
  todo : List.Forall₂ (Tip G start w.heap) rest todo
  added : List.Forall₂ (Tip G start w.heap) back added

variable {rest : List ℕ} {kept todo added : List (Stack C)}

theorem Passing.at (h : Passing G start w front (s :: rest) back kept (state :: todo) added) :
    At G start w front s (rest ++ back) state := by
  obtain ⟨hs, hrest⟩ := List.forall₂_cons.mp h.todo
  have htips : List.Forall₂ (Tip G start w.heap) (front ++ (rest ++ back))
      (kept ++ (todo ++ added)) := List.rel_append h.kept (List.rel_append hrest h.added)
  have honce := h.once
  rw [h.current, List.cons_append, List.nodup_middle] at honce
  have hnot := (List.nodup_cons.mp honce).1
  refine ⟨h.linked, hs, h.current, fun hmem => hnot (List.mem_append_left _ hmem), fun y hy => ?_⟩
  refine ⟨?_, exists_tip htips hy⟩
  rintro rfl
  exact hnot hy

theorem Passing.next {turn : Saturation.Turn (Stack C)}
    (h : Passing G start w front (s :: rest) back kept (state :: todo) added)
    (hturned : Turned G start w w' front s (rest ++ back) state turn ids) :
    Passing G start w' (front ++ place s turn state) rest (back ++ ids)
      (kept ++ (turn.kept state).toList) todo (added ++ turn.added) := by
  have hlift : ∀ {l : List ℕ} {tips : List (Stack C)}, l ⊆ front ++ (rest ++ back) →
      List.Forall₂ (Tip G start w.heap) l tips → List.Forall₂ (Tip G start w'.heap) l tips :=
    fun hsub htips => ((List.forall₂_and_left _ _).mpr ⟨hsub, htips⟩).imp fun y after hy =>
      hturned.others y after (h.at.others y hy.1).1 hy.2
  have hplace : List.Forall₂ (Tip G start w'.heap) (place s turn state)
      (turn.kept state).toList := by
    unfold place
    cases hkept : turn.kept state with
    | none => exact List.Forall₂.nil
    | some after => exact List.Forall₂.cons (hturned.kept after hkept) List.Forall₂.nil
  refine ⟨hturned.linked, h.at.once h.once hturned, by simp [hturned.current],
    List.rel_append (hlift ?_ h.kept) hplace, hlift ?_ (List.forall₂_cons.mp h.todo).2,
    List.rel_append (hlift ?_ h.added) hturned.added⟩ <;>
  · intro y hy
    simp [hy]

/-- A pass over a copy of the current states, by induction on what is left of the copy. -/
theorem walk_spec {turn : ℕ → Forest C → Option (Forest C × Bool)}
    {f : Stack C → Saturation.Turn (Stack C)} {again : Stack C → Bool}
    (hturn : ∀ w front s back, ∀ state ∈ current, At G start w front s back state →
      ∃ w' ids, turn s w = some (w', again state) ∧
        Turned G start w w' front s back state (f state) ids)
    (h : Running G start w current) :
    ∃ w', w.walk turn = some (w', current.any again) ∧
      Running G start w' (Saturation.pass f current) := by
  have hloop : ∀ (rest front back : List ℕ) (w : Forest C) (b : Bool)
      (kept todo added : List (Stack C)), Passing G start w front rest back kept todo added →
      todo ⊆ current →
      ∃ w', rest.foldlM (fun x s => (turn s x.1).map fun y => (y.1, x.2 || y.2)) (w, b) =
          some (w', b || todo.any again) ∧
        Running G start w' (kept ++ todo.filterMap (fun state => (f state).kept state) ++
          (added ++ todo.flatMap fun state => (f state).added)) := by
    intro rest
    induction rest with
    | nil =>
      intro front back w b kept todo added hpassing _
      obtain rfl := List.forall₂_nil_left_iff.mp hpassing.todo
      refine ⟨w, by simp, hpassing.linked, hpassing.once, ?_⟩
      rw [hpassing.current]
      simpa using List.rel_append hpassing.kept hpassing.added
    | cons s rest ih =>
      intro front back w b kept todo added hpassing htodo
      obtain ⟨state, todo, -, -, rfl⟩ := List.forall₂_cons_left_iff.mp hpassing.todo
      obtain ⟨w', ids, hrun, hturned⟩ := hturn w front s (rest ++ back) state
        (htodo List.mem_cons_self) hpassing.at
      obtain ⟨u, hfold, hrunning⟩ := ih _ _ _ (b || again state) _ _ _ (hpassing.next hturned)
        (List.subset_of_cons_subset htodo)
      refine ⟨u, ?_, ?_⟩
      · rw [List.foldlM_cons, hrun]
        simpa [Bool.or_assoc] using hfold
      · cases hkept : (f state).kept state <;> simpa [hkept] using hrunning
  obtain ⟨w', hfold, hrunning⟩ := hloop w.current [] [] w false [] current []
    ⟨h.linked, h.once, by simp, List.Forall₂.nil, h.tips, List.Forall₂.nil⟩
      (List.Subset.refl current)
  refine ⟨w', by simpa [walk] using hfold, ?_⟩
  simpa [Saturation.pass] using hrunning

end Passes

section Loops

variable [DecidableEq C]

/-- The first loop ends when every state stays. -/
theorem followAll_spec (turns : ℕ) (h : Running G start w current) :
    Option.Rel (Running G start) (w.followAll G start turns)
      (Saturation.saturate G.follow turns current) := by
  induction turns generalizing w current with
  | zero =>
    obtain ⟨w', hwalk, hrunning⟩ := walk_spec (fun _ _ _ _ _ _ hat => hat.follow) h
    rw [followAll, hwalk, Option.bind_some, Saturation.saturate, ← List.not_all_eq_any_not]
    cases hall : current.all fun state => Saturation.stays (G.follow state) with
    | false => exact Option.Rel.none
    | true =>
      rw [Saturation.pass_of_stable (Saturation.all_stays_iff.mp hall)] at hrunning
      exact Option.Rel.some hrunning
  | succ turns ih =>
    obtain ⟨w', hwalk, hrunning⟩ := walk_spec (fun _ _ _ _ _ _ hat => hat.follow) h
    rw [followAll, hwalk, Option.bind_some, Saturation.saturate, ← List.not_all_eq_any_not]
    cases hall : current.all fun state => Saturation.stays (G.follow state) with
    | false => exact ih hrunning
    | true =>
      rw [Saturation.pass_of_stable (Saturation.all_stays_iff.mp hall)] at hrunning
      exact Option.Rel.some hrunning

theorem tryAll_spec (h : Running G start w current)
    (hstable : ∀ state ∈ current, Saturation.Stable G.follow state) (t : Token) :
    ∃ w', w.tryAll G start t = some w' ∧
      Running G start w' (Saturation.pass (G.tryToken t) current) := by
  have hturn : ∀ w front s back, ∀ state ∈ current, At G start w front s back state →
      ∃ w' ids, (tryToken G start t s w).map (fun w => (w, false)) = some (w', false) ∧
        Turned G start w w' front s back state (G.tryToken t state) ids := by
    intro w front s back state hstate hat
    obtain ⟨w', ids, hrun, hturned⟩ := hat.tryToken (hstable state hstate) t
    exact ⟨w', ids, by rw [hrun]; rfl, hturned⟩
  obtain ⟨w', hwalk, hrunning⟩ := walk_spec hturn h
  exact ⟨w', by rw [tryAll, hwalk]; rfl, hrunning⟩

/-- At the end of the input every state is freed, up to a root that has a result. -/
theorem tryEnd_spec (h : Running G start w current)
    (hstable : ∀ state ∈ current, Saturation.Stable G.follow state) :
    w.tryEnd G start w.current = some (current.findSome? Grammar.accepted) := by
  induction current generalizing w with
  | nil =>
    have hnil := List.forall₂_nil_right_iff.mp h.tips
    rw [hnil, tryEnd, if_pos hnil]
    rfl
  | cons state current ih =>
    obtain ⟨s, rest, hs, hrest, hcurrent⟩ := List.forall₂_cons_right_iff.mp h.tips
    have hpassing : Passing G start w [] (s :: rest) [] [] (state :: current) [] :=
      ⟨h.linked, h.once, by simp [hcurrent], List.Forall₂.nil, List.Forall₂.cons hs hrest,
        List.Forall₂.nil⟩
    have hread := hs.2.expected
    obtain ⟨hstate, hothers⟩ := List.forall_mem_cons.mp hstable
    obtain ⟨hchoices, hempty⟩ := stable_iff.mp hstate
    rw [hcurrent, tryEnd, hread]
    cases state with
    | root first => exact absurd rfl (hchoices first)
    | accept t =>
      cases hs.2 with
      | accept hdata =>
        have hnode := (ParserState.fields hdata).2.2.2.2
        simp only [Stack.expected, hnode]
        rfl
    | frame top parent =>
      obtain ⟨w', hfree, hturned⟩ := hpassing.at.free
      have hnext := hpassing.next hturned
      have hrunning : Running G start w' current := by
        refine ⟨hnext.linked, hnext.once, ?_⟩
        rw [hnext.current]
        simpa [place, Saturation.Turn.kept] using hnext.todo
      have hrun := ih hrunning hothers
      rw [hnext.current] at hrun
      have hfreed : (w.free s).bind (tryEnd G start rest) =
          some (current.findSome? Grammar.accepted) := by
        rw [hfree, Option.bind_some]
        simpa [place, Saturation.Turn.kept] using hrun
      cases hexpected : (Stack.frame top parent).expected with
      | none =>
        cases hs.2 with
        | frame _ _ _ hne => exact absurd (List.head?_eq_none_iff.mp hexpected) hne
      | some item =>
        cases item with
        | choices d => exact absurd hexpected (hchoices d)
        | empty => exact absurd hexpected hempty
        | _ => exact hfreed

theorem parseFrom_eq (turns : ℕ) (tokens : List Token) (h : Running G start w current) :
    parseFrom G start turns tokens w = G.parseFrom turns tokens current := by
  induction tokens generalizing w current with
  | nil =>
    have hfollow := followAll_spec turns h
    unfold parseFrom Grammar.parseFrom
    simp only [h.nil_iff]
    split_ifs with hnil
    · rw [hnil, Saturation.saturate_of_stable (by simp)]
      rfl
    generalize hstacks : Saturation.saturate G.follow turns current = stable at hfollow
    generalize w.followAll G start turns = memory at hfollow
    cases hfollow with
    | none => rfl
    | some hrunning =>
      exact tryEnd_spec hrunning fun state hstate => ((Saturation.mem_saturate hstacks).mp hstate).1
  | cons t tokens ih =>
    have hfollow := followAll_spec turns h
    unfold parseFrom Grammar.parseFrom
    simp only [h.nil_iff]
    split_ifs with hnil
    · rfl
    generalize hstacks : Saturation.saturate G.follow turns current = stable at hfollow
    generalize w.followAll G start turns = memory at hfollow
    cases hfollow with
    | none => rfl
    | some hrunning =>
      obtain ⟨w', hrun, hnext⟩ := tryAll_spec hrunning
        (fun state hstate => ((Saturation.mem_saturate hstacks).mp hstate).1) t
      simp only [Option.bind_some, hrun, ih hnext]

/-- The parser over the states in memory gives what it gives over the stacks. -/
theorem parse_eq (G : Grammar C) (start : C) (turns : ℕ) (tokens : List Token) :
    parse G start turns tokens = G.parse turns start tokens :=
  parseFrom_eq turns tokens rooted_running

end Loops

end SnapCpp.Parser.Forest
