import SnapCpp.ParserSharing
import SnapCpp.Pieces

/-!
The parser over states in memory gives what the parser over stacks gives. A call of `next_token()`
leaves the stacks of the other current states alone and turns the one of its state into the stacks
that come after it, in the same order; so do the loops, which walk a copy of the current states.
-/
namespace SnapCpp.Parser.Forest

variable {C : Type} {G : Grammar C} {start : C} {w w' u : Forest C} {s x y p : ℕ}
  {state parent : Stack C}

theorem Linked.withCurrent (h : Linked w) (current : List ℕ) :
    Linked { w with current := current } :=
  ⟨h.links, h.nodup, h.dead, h.made, h.freed, h.freedOnce⟩

theorem Stands.modify (h : Stands G start w.heap y state) (habove : ¬ Above w.heap y s)
    (f : ParserState C → ParserState C) : Stands G start (w.modify s f).heap y state := by
  refine h.congr fun x hx => ?_
  have hne : x ≠ s := by
    rintro rfl
    exact habove hx
  rw [modify_heap_of_ne f hne]

theorem Tip.modify (h : Tip G start w.heap y state) (hne : y ≠ s) (habove : ¬ Above w.heap y s)
    (f : ParserState C → ParserState C) : Tip G start (w.modify s f).heap y state :=
  ⟨by rw [modify_heap_of_ne f hne]; exact h.1, h.2.modify habove f⟩

theorem Freed.tip (h : Freed w w' s) (hy : Tip G start w.heap y state) (hne : y ≠ s)
    (habove : ¬ Above w.heap y s) : Tip G start w'.heap y state := by
  refine ⟨by rw [h.others y hne, hy.1]; rfl, hy.2.congr fun x hx => ?_⟩
  have hxs : x ≠ s := by
    rintro rfl
    exact habove hx
  rw [h.others x hxs]
  rfl

/-- The same state at another place. -/
theorem Stands.copied {q : ℕ} (h : Stands G start w.heap p state)
    (hdata : (w'.heap q).data = (w.heap p).data)
    (hsame : ∀ x, Live w.heap x → (w'.heap x).data = (w.heap x).data) :
    Stands G start w'.heap q state := by
  have hkeep : ∀ {x : ℕ} {state' : Stack C}, Stands G start w.heap x state' →
      Stands G start w'.heap x state' := fun hx => hx.congr fun z hz => by
    obtain ⟨_, hz', -⟩ := hx.above hz
    exact hsame z hz'.live
  cases h with
  | root h => exact Stands.root (hdata.trans h)
  | accept h => exact Stands.accept (hdata.trans h)
  | frame h hrule htodo hne hnode hexpected hparent =>
    exact Stands.frame (hdata.trans h) hrule htodo hne hnode hexpected (hkeep hparent)

section Growing

/-- Children of a parent are made and pushed; the states in use keep what they are. -/
structure Grown (w w' : Forest C) (p : ℕ) (ids : List ℕ) : Prop where
  linked : Linked w'
  current : w'.current = w.current ++ ids
  once : ids.Nodup
  fresh : ∀ x ∈ ids, ¬ Live w.heap x
  alive : ∀ x ∈ ids, Live w'.heap x
  kept : ∀ y, Live w.heap y → (w'.heap y).data = (w.heap y).data
  leaves : ∀ y ≠ p, Live w.heap y → (w'.heap y).fChildren = (w.heap y).fChildren

variable {ids more : List ℕ}

theorem Grown.live (h : Grown w w' p ids) (hy : Live w.heap y) : Live w'.heap y := by
  rw [Live, (ParserState.fields (h.kept y hy)).2.1]
  exact hy

theorem Grown.stands (h : Grown w w' p ids) (hy : Stands G start w.heap y state) :
    Stands G start w'.heap y state :=
  hy.congr fun x hx => by
    obtain ⟨_, hx', -⟩ := hy.above hx
    exact h.kept x hx'.live

theorem Grown.tip (h : Grown w w' p ids) (hne : y ≠ p) (hy : Tip G start w.heap y state) :
    Tip G start w'.heap y state :=
  ⟨(h.leaves y hne hy.2.live).trans hy.1, h.stands hy.2⟩

theorem Grown.refl (h : Linked w) : Grown w w p [] :=
  ⟨h, (List.append_nil _).symm, List.nodup_nil, fun _ hx => absurd hx List.not_mem_nil,
    fun _ hx => absurd hx List.not_mem_nil, fun _ _ => rfl, fun _ _ _ => rfl⟩

theorem Grown.trans (h : Grown w u p ids) (h' : Grown u w' p more) :
    Grown w w' p (ids ++ more) := by
  refine ⟨h'.linked, by rw [h'.current, h.current, List.append_assoc], ?_, fun x hx => ?_,
    fun x hx => ?_, fun y hy => (h'.kept y (h.live hy)).trans (h.kept y hy),
    fun y hne hy => (h'.leaves y hne (h.live hy)).trans (h.leaves y hne hy)⟩
  · refine List.Nodup.append h.once h'.once ?_
    intro x hx hx'
    exact h'.fresh x hx' (h.alive x hx)
  · rcases List.mem_append.mp hx with hx | hx
    · exact h.fresh x hx
    · exact fun hlive => h'.fresh x hx (h.live hlive)
  · rcases List.mem_append.mp hx with hx | hx
    · exact h'.live (h.alive x hx)
    · exact h'.alive x hx

/-- A new child, whose position and node may be set. -/
theorem Allocated.grown {c : Choices C} {rule : ℕ} (h : Allocated w w' x (some p) c rule)
    (hlinked : Linked u) (hcurrent : u.current = w.current ++ [x])
    (hchoices : (u.heap x).fChoices = some c) (hothers : ∀ y ≠ x, u.heap y = w'.heap y) :
    Grown w u p [x] := by
  have hne : ∀ y, Live w.heap y → y ≠ x := by
    rintro y hy rfl
    exact h.dead hy
  refine ⟨hlinked, hcurrent, by simp, fun y hy => ?_, fun y hy => ?_, fun y hy => ?_,
    fun y hyp hy => ?_⟩
  · rw [List.mem_singleton.mp hy]
    exact h.dead
  · rw [List.mem_singleton.mp hy, Live, hchoices]
    simp
  · rw [hothers y (hne y hy), h.others y (hne y hy)]
    rfl
  · rw [hothers y (hne y hy), h.others y (hne y hy),
      if_neg (fun heq => hyp (Option.some.inj heq).symm), List.append_nil]

/-- A loop that makes a child for some of its turns. -/
theorem grown_foldlM {α : Type} {step : Forest C → α → Option (Forest C)}
    {child : α → Option (Stack C)} (l : List α)
    (hstep : ∀ u, ∀ a ∈ l, Linked u → Stands G start u.heap p parent →
      (child a = none → step u a = some u) ∧
      ∀ state, child a = some state → ∃ u' x, step u a = some u' ∧ Grown u u' p [x] ∧
        Tip G start u'.heap x state)
    (hlinked : Linked w) (hp : Stands G start w.heap p parent) :
    ∃ w' ids, l.foldlM step w = some w' ∧ Grown w w' p ids ∧
      List.Forall₂ (Tip G start w'.heap) ids (l.filterMap child) := by
  induction l generalizing w with
  | nil => exact ⟨w, [], rfl, Grown.refl hlinked, List.Forall₂.nil⟩
  | cons a l ih =>
    have hrest := fun u b hb => hstep u b (List.mem_cons_of_mem a hb)
    obtain ⟨hnone, hsome⟩ := hstep w a List.mem_cons_self hlinked hp
    cases hchild : child a with
    | none =>
      obtain ⟨w', ids, hfold, hgrown, htips⟩ := ih hrest hlinked hp
      refine ⟨w', ids, ?_, hgrown, by rwa [List.filterMap_cons_none hchild]⟩
      rw [List.foldlM_cons, hnone hchild]
      exact hfold
    | some state =>
      obtain ⟨u, x, hturn, hgrown, htip⟩ := hsome state hchild
      obtain ⟨w', ids, hfold, hgrown', htips⟩ := ih hrest hgrown.linked (hgrown.stands hp)
      have hxp : x ≠ p := by
        rintro rfl
        exact hgrown.fresh x (List.mem_singleton_self x) hp.live
      refine ⟨w', x :: ids, ?_, hgrown.trans hgrown', ?_⟩
      · rw [List.foldlM_cons, hturn]
        exact hfold
      · rw [List.filterMap_cons_some hchild]
        exact List.Forall₂.cons (hgrown'.tip hxp htip) htips

end Growing

section NextToken

/-- A state to which a token or a node was given, before it moves on. -/
inductive Given (G : Grammar C) (start : C) (heap : ℕ → ParserState C) (t : Tree C) :
    ℕ → Stack C → Prop
  | root {s : ℕ} : (heap s).data = { fChoices := some .root, fNode := some [t] } →
      Given G start heap t s (.root start)
  | frame {s p i k : ℕ} {c : C} {r : Rule C} {todo : List (Item C)} {node : List (Tree C)}
      {parent : Stack C} :
      (heap s).data =
        { fParent := some p, fChoices := some (.own c), fRule := i, fPosition := k,
          fNode := some (node ++ [t]) } →
      (G.rules c)[i]? = some r → r.items.drop k = todo → todo ≠ [] →
      parent.expected = some (.choices c) → Stands G start heap p parent →
      Given G start heap t s (.frame ⟨c, i, todo, node⟩ parent)

variable {heap' : ℕ → ParserState C} {t : Tree C} {c : C} {front back : List ℕ}

theorem Given.of_frame {i : ℕ} {todo : List (Item C)} {node : List (Tree C)}
    (h : Given G start w.heap t s (.frame ⟨c, i, todo, node⟩ parent)) :
    ∃ p k r, (w.heap s).data =
        { fParent := some p, fChoices := some (.own c), fRule := i, fPosition := k,
          fNode := some (node ++ [t]) } ∧
      (G.rules c)[i]? = some r ∧ r.items.drop k = todo ∧ todo ≠ [] ∧
      parent.expected = some (.choices c) ∧ Stands G start w.heap p parent := by
  cases h with
  | frame hdata hrule htodo hne hexpected hp =>
    exact ⟨_, _, _, hdata, hrule, htodo, hne, hexpected, hp⟩

theorem Given.congr (h : Given G start w.heap t s state)
    (hsame : ∀ x, Above w.heap s x → (heap' x).data = (w.heap x).data) :
    Given G start heap' t s state := by
  cases h with
  | root hdata => exact Given.root ((hsame _ .refl).trans hdata)
  | frame hdata hrule htodo hne hexpected hparent =>
    refine Given.frame ((hsame _ .refl).trans hdata) hrule htodo hne hexpected
      (hparent.congr fun x hx => hsame x (.head (ParserState.fields hdata).1 hx))

theorem addNode_given (h : Stands G start w.heap s state) (hexpected : state.expected ≠ none)
    (t : Tree C) : Given G start (w.addNode s t).heap t s state := by
  have hself : ((w.addNode s t).heap s).data =
      { (w.heap s).data with fNode := some ((w.heap s).data.fNode.getD [] ++ [t]) } := by
    rw [addNode, modify_heap_self]
    rfl
  cases h with
  | root hdata => exact Given.root (by rw [hself, hdata]; rfl)
  | accept => exact absurd rfl hexpected
  | @frame s p i k c r todo tokens node parent hdata hrule htodo hne hnode hwaits hparent =>
    have hframe := Stands.frame hdata hrule htodo hne hnode hwaits hparent
    have habove := hframe.not_above (ParserState.fields hdata).1
    refine Given.frame ?_ hrule htodo hne hwaits (hparent.modify habove _)
    rw [hself, hdata, ← hnode]

variable [DecidableEq C]

theorem nextToken_more {c : Choices C} (rule : List (Option (Item C))) {fuel : ℕ}
    (hchoices : (w.heap s).fChoices = some c)
    (hrule : (c.rules G start)[(w.heap s).fRule]? = some rule)
    (hlt : (w.heap s).fPosition + 1 < rule.length) :
    nextToken G start (fuel + 1) s w = some (w.forward s) := by
  unfold nextToken
  simp only [forward, modify_heap_self, hchoices, hrule, Option.bind_some, if_pos hlt]

theorem nextToken_end (rule : List (Option (Item C))) (fuel : ℕ)
    (hchoices : (w.heap s).fChoices = some (.own c)) (hparent : (w.heap s).fParent = some p)
    (hrule : ((Choices.own c).rules G start)[(w.heap s).fRule]? = some rule)
    (hend : (w.heap s).fPosition + 1 = rule.length) :
    nextToken G start (fuel + 1) s w =
      ((w.forward s).recursive G start (nextToken G start fuel) p c
        (.node c (w.heap s).fRule ((w.heap s).fNode.getD []))).bind fun u =>
          (u.receiver p).bind fun x =>
            ((x.2.addNode x.1 (.node c (w.heap s).fRule ((w.heap s).fNode.getD []))).free s).bind
              fun v => nextToken G start fuel x.1 (v.push x.1) := by
  rw [nextToken]
  simp only [forward, modify_heap_self, hchoices, hparent, hrule, Option.bind_some, hend,
    lt_irrefl, if_false, if_true]

theorem recursive_spec (fuel : ℕ) (node : Tree C) (hlinked : Linked w)
    (hexpected : parent.expected = some (.choices c)) (hp : Stands G start w.heap p parent) :
    ∃ w' ids, w.recursive G start (nextToken G start (fuel + 1)) p c node = some w' ∧
      Grown w w' p ids ∧
      List.Forall₂ (Tip G start w'.heap) ids (G.recursiveStates c node parent) := by
  unfold recursive Grammar.recursiveStates Choices.rules
  rw [List.zipIdx_map, List.foldlM_map]
  refine grown_foldlM _ (fun u a ha hu hp' => ?_) hlinked hp
  obtain ⟨r, i⟩ := a
  have hr : (G.rules c)[i]? = some r := List.mem_zipIdx_iff_getElem?.mp ha
  by_cases hfirst : r.first = .choices c
  · refine ⟨fun hchild => by simp [hfirst] at hchild, fun state hchild => ?_⟩
    simp only [hfirst, if_true, Option.some.injEq] at hchild
    subst hchild
    have hA := allocated hu (some p)
      (fun q hq => Option.some.inj hq ▸ hp'.live) (.own c) i
    generalize hx : u.alloc (some p) (.own c) i = x at hA
    obtain ⟨x, v⟩ := x
    let v' := (v.addNode x node).push x
    have hself : v'.heap x =
        { fParent := some p, fChoices := some (.own c), fRule := i, fNode := some [node] } := by
      change (v.addNode x node).heap x = _
      rw [addNode, modify_heap_self, hA.state]
      rfl
    have hrest := Grammar.rest_ne_nil (List.mem_of_getElem? hr) hfirst
    have hmove : nextToken G start (fuel + 1) x v' = some (v'.forward x) := by
      refine nextToken_more (r.items.map some) (c := .own c) (by rw [hself]) ?_ ?_
      · rw [hself]
        simp [Choices.rules, hr]
      · rw [hself]
        simpa [Rule.items] using List.length_pos_iff.mpr hrest
    have hforward : (v'.forward x).heap x =
        { fParent := some p, fChoices := some (.own c), fRule := i, fPosition := 1,
          fNode := some [node] } := by
      rw [forward, modify_heap_self, hself]
    have hgrown : Grown u (v'.forward x) p [x] := by
      refine hA.grown (Linked.modify (Linked.withCurrent (Linked.modify hA.linked ?_ ?_ ?_) _)
        ?_ ?_ ?_) ?_ ?_ fun y hy => ?_
      · rfl
      · rfl
      · rfl
      · rfl
      · rfl
      · rfl
      · exact congrArg (· ++ [x]) hA.current
      · rw [hforward]
      · rw [forward, modify_heap_of_ne _ hy]
        change (v.addNode x node).heap y = v.heap y
        rw [addNode, modify_heap_of_ne _ hy]
    refine ⟨v'.forward x, x, ?_, hgrown, ?_, ?_⟩
    · simp [Rule.items, hfirst, hx, v', hmove]
    · rw [hforward]
    · exact Stands.frame (congrArg ParserState.data hforward) hr rfl hrest rfl hexpected
        (hgrown.stands hp')
  · refine ⟨fun _ => ?_, fun state hchild => by simp [hfirst] at hchild⟩
    simp [Rule.items, hfirst]

omit [DecidableEq C] in
/-- A parent is changed in its place only if the state is its only child. -/
theorem receiver_spec (hlinked : Linked w) (hp : Stands G start w.heap p parent)
    (hs : (w.heap s).fParent = some p) :
    ∃ q v, w.receiver p = some (q, v) ∧ Linked v ∧ Stands G start v.heap q parent ∧
      (∀ z ∈ (v.heap q).fChildren, z = s) ∧ v.current = w.current ∧
      (∀ y, Live w.heap y → (v.heap y).data = (w.heap y).data ∧
        ((w.heap y).fChildren = [] → (v.heap y).fChildren = [])) ∧
      (q = p ∨ ¬ Live w.heap q) := by
  have hmem := (hlinked.links s p).mp hs
  unfold receiver
  split_ifs with hseveral
  · obtain ⟨c, hc⟩ := Option.ne_none_iff_exists'.mp hp.live
    have hparent : ∀ q, (w.heap p).fParent = some q → p ∈ (w.heap q).fChildren := fun q =>
      (hlinked.links p q).mp
    have hA := allocated hlinked (w.heap p).fParent (fun q hq => by
      by_contra hdead
      have hchild := hparent q hq
      rw [(hlinked.dead q hdead).2] at hchild
      cases hchild) c (w.heap p).fRule
    generalize hx : w.alloc (w.heap p).fParent c (w.heap p).fRule = x at hA
    obtain ⟨x, v⟩ := x
    have hne : ∀ y, Live w.heap y → y ≠ x := by
      rintro y hy rfl
      exact hA.dead hy
    let copied : ParserState C → ParserState C := fun state =>
      { state with fPosition := (w.heap p).fPosition, fNode := (w.heap p).fNode }
    have hself : (v.modify x copied).heap x = (w.heap p).data := by
      rw [modify_heap_self, hA.state]
      simp only [copied, ParserState.data, hc]
    have hothers : ∀ y, Live w.heap y → (v.modify x copied).heap y = { w.heap y with
        fChildren := (w.heap y).fChildren ++ if (w.heap p).fParent = some y then [x] else [] } :=
      fun y hy => by rw [modify_heap_of_ne _ (hne y hy), hA.others y (hne y hy)]
    have hdata : ∀ y, Live w.heap y → ((v.modify x copied).heap y).data = (w.heap y).data :=
      fun y hy => by rw [hothers y hy]; rfl
    refine ⟨x, v.modify x copied, ?_, hA.linked.modify rfl rfl rfl,
      hp.copied (by rw [hself]; rfl) hdata, ?_, hA.current, fun y hy => ⟨hdata y hy, ?_⟩,
      Or.inr hA.dead⟩
    · simp only [copy, hc, Option.map_some, hx]
      rfl
    · rw [hself]
      exact fun z hz => absurd hz List.not_mem_nil
    · intro hempty
      rw [hothers y hy, if_neg (fun hq => ?_)]
      · exact (List.append_nil _).trans hempty
      · have hchild := hparent y hq
        rw [hempty] at hchild
        cases hchild
  · refine ⟨p, w, rfl, hlinked, hp, fun z hz => ?_, rfl, fun y _ => ⟨rfl, id⟩, Or.inl rfl⟩
    obtain ⟨only, honly⟩ := List.length_eq_one_iff.mp
      (le_antisymm (not_lt.mp hseveral) (List.length_pos_of_mem hmem))
    rw [honly] at hz hmem
    rw [List.mem_singleton.mp hz, List.mem_singleton.mp hmem]

omit [DecidableEq C] in
/-- The parent or a copy of it takes the place of the state, with its node. -/
theorem received (hlinked : Linked u) (hp : Stands G start u.heap p parent)
    (hs : (u.heap s).fParent = some p) (hlive : Live u.heap s) (hleaf : (u.heap s).fChildren = [])
    (hexpected : parent.expected = some (.choices c)) (tree : Tree C) :
    ∃ q v v', u.receiver p = some (q, v) ∧ (v.addNode q tree).free s = some v' ∧ Linked v' ∧
      Given G start v'.heap tree q parent ∧ (v'.heap q).fChildren = [] ∧
      v'.current = u.current.erase s ∧ (q = p ∨ ¬ Live u.heap q) ∧
      ∀ y state, y ≠ s → y ≠ q → Tip G start u.heap y state → Tip G start v'.heap y state := by
  obtain ⟨q, v, hreceiver, hv, hq, honly, hcurrent, hkept, hfresh⟩ := receiver_spec hlinked hp hs
  have hqs : q ≠ s := by
    rcases hfresh with rfl | hdead
    · exact hlinked.parent_ne hleaf hs
    · rintro rfl
      exact hdead hlive
  have hleafv : (v.heap s).fChildren = [] := (hkept s hlive).2 hleaf
  have hsv : (v.addNode q tree).heap s = v.heap s := modify_heap_of_ne _ hqs.symm
  have hv' : Linked (v.addNode q tree) := hv.modify rfl rfl rfl
  have hlivev : Live (v.addNode q tree).heap s := by
    rw [Live, hsv, (ParserState.fields (hkept s hlive).1).2.1]
    exact hlive
  have hleafv' : ((v.addNode q tree).heap s).fChildren = [] := by
    rw [hsv]
    exact hleafv
  obtain ⟨v', hfree, hF⟩ := freed hv' hlivev hleafv'
  refine ⟨q, v, v', hreceiver, hfree, hF.linked, ?_, ?_, ?_, hfresh, fun y state hys hyq hy => ?_⟩
  · refine (addNode_given hq (by rw [hexpected]; simp) tree).congr fun x hx => ?_
    have hxs : x ≠ s := by
      rintro rfl
      exact hv'.not_above_leaf hleafv' hqs hx
    rw [hF.others x hxs]
    rfl
  · rw [hF.others q hqs]
    refine List.eq_nil_iff_forall_not_mem.mpr fun z hz => ?_
    have hzq := ((hv'.nodup q).mem_erase_iff.mp hz).2
    rw [addNode, modify_heap_self] at hzq
    exact ((hv'.nodup q).mem_erase_iff.mp hz).1 (honly z hzq)
  · rw [hF.current]
    exact congrArg (List.erase · s) hcurrent
  · have hyv : Tip G start v.heap y state :=
      ⟨(hkept y hy.2.live).2 hy.1, hy.2.copied (hkept y hy.2.live).1 fun x hx => (hkept x hx).1⟩
    have hyv' := hyv.modify hyq (hv.not_above honly hleafv hyq hys)
      fun state => { state with fNode := some (state.fNode.getD [] ++ [tree]) }
    exact hF.tip hyv' hys (hv'.not_above_leaf hleafv' hys)

/-- What a reduction leaves: the node at the parent or its copy `q`, and recursive rules. -/
structure Reduced (G : Grammar C) (start : C) (w v : Forest C) (s q : ℕ) (ids : List ℕ) (c : C)
    (tree : Tree C) (parent : Stack C) : Prop where
  linked : Linked v
  given : Given G start v.heap tree q parent
  leaf : (v.heap q).fChildren = []
  current : v.current = (w.current ++ ids).erase s ++ [q]
  once : ids.Nodup
  added : List.Forall₂ (Tip G start v.heap) ids (G.recursiveStates c tree parent)
  fresh : ∀ x ∈ ids, x ≠ q ∧ ¬ Live w.heap x
  apart : ∀ state, ¬ Tip G start w.heap q state
  others : ∀ y state, y ≠ s → Tip G start w.heap y state → y ≠ q ∧ Tip G start v.heap y state

theorem reduce_spec {i : ℕ} {item : Item C} {node : List (Tree C)} (fuel : ℕ)
    (hlinked : Linked w) (hgiven : Given G start w.heap t s (.frame ⟨c, i, [item], node⟩ parent))
    (hleaf : (w.heap s).fChildren = []) :
    ∃ v q ids, nextToken G start (fuel + 2) s w = nextToken G start (fuel + 1) q v ∧
      Reduced G start w v s q ids c (.node c i (node ++ [t])) parent := by
  obtain ⟨p, k, r, hdata, hrule, htodo, -, hexpected, hp⟩ := hgiven.of_frame
  obtain ⟨hparent, hchoices, hindex, hposition, hnode⟩ := ParserState.fields hdata
  have hmem := (hlinked.links s p).mp hparent
  have hps := hlinked.parent_ne hleaf hparent
  let tree : Tree C := .node c i (node ++ [t])
  have hend : k + 1 = r.items.length := by
    have hlength := congrArg List.length htodo
    rw [List.length_drop] at hlength
    simp only [List.length_singleton] at hlength
    omega
  have hcall : nextToken G start (fuel + 2) s w = _ := nextToken_end (r.items.map some) (fuel + 1)
    hchoices hparent (by rw [hindex]; simp [Choices.rules, hrule])
    (by rw [hposition]; simpa using hend)
  rw [hindex, hnode] at hcall
  -- the recursive rules are other children of the parent
  have hp₀ : Stands G start (w.forward s).heap p parent :=
    hp.modify (hlinked.not_above_leaf hleaf hps) _
  have hlinked₀ : Linked (w.forward s) := hlinked.modify rfl rfl rfl
  obtain ⟨u, ids, hrec, hgrown, htips⟩ := recursive_spec fuel tree hlinked₀ hexpected hp₀
  have hforward : (w.forward s).heap s =
      { w.heap s with fPosition := (w.heap s).fPosition + 1 } := modify_heap_self _
  have hlive₀ : ∀ y, Live w.heap y → Live (w.forward s).heap y := by
    intro y hy
    by_cases hys : y = s
    · rw [Live, hys, hforward]
      exact hys ▸ hy
    · rw [Live, forward, modify_heap_of_ne _ hys]
      exact hy
  have hlive : ∀ y, Live w.heap y → Live u.heap y := fun y hy => hgrown.live (hlive₀ y hy)
  have hslive : Live w.heap s := by rw [Live, hchoices]; simp
  have hsu : (u.heap s).fParent = some p := by
    rw [(ParserState.fields (hgrown.kept s (hlive₀ s hslive))).1, hforward]
    exact hparent
  have hleafu : (u.heap s).fChildren = [] := by
    rw [hgrown.leaves s hps.symm (hlive₀ s hslive), hforward]
    exact hleaf
  -- the parent, or a copy
  obtain ⟨q, v, v', hreceiver, hfree, hv', hgiven', hleaf', hcurrent, hfresh, hlift⟩ :=
    received hgrown.linked (hgrown.stands hp₀) hsu (hlive s hslive) hleafu hexpected tree
  have hlift₀ : ∀ y state, y ≠ s → Tip G start w.heap y state → y ≠ p ∧
      Tip G start u.heap y state := by
    intro y state hys hy
    have hyp : y ≠ p := by
      rintro rfl
      rw [hy.1] at hmem
      cases hmem
    exact ⟨hyp, hgrown.tip hyp (hy.modify hys (hlinked.not_above_leaf hleaf hys) _)⟩
  have hids : ∀ x ∈ ids, x ≠ s ∧ x ≠ q ∧ ¬ Live w.heap x := by
    intro x hx
    have hdead := hgrown.fresh x hx
    refine ⟨?_, ?_, fun hlive => hdead (hlive₀ x hlive)⟩
    · rintro rfl
      exact hdead (hlive₀ _ hslive)
    · rintro rfl
      rcases hfresh with rfl | hdead'
      · exact hdead hp₀.live
      · exact hdead' (hgrown.alive _ hx)
  refine ⟨v'.push q, q, ids, ?_, hv'.withCurrent _, hgiven', hleaf', ?_, hgrown.once, ?_,
    fun x hx => (hids x hx).2, fun state hstate => ?_, fun y state hys hy => ?_⟩
  · rw [hcall, Option.getD_some, hrec, Option.bind_some, hreceiver, Option.bind_some, hfree,
      Option.bind_some]
  · change v'.current ++ [q] = _
    rw [hcurrent, hgrown.current]
    rfl
  · exact ((List.forall₂_and_left _ _).mpr ⟨hids, htips⟩).imp fun x state hx =>
      hlift x state hx.1.1 hx.1.2.1 hx.2
  · rcases hfresh with rfl | hdead
    · rw [hstate.1] at hmem
      cases hmem
    · exact hdead (hlive q hstate.2.live)
  · obtain ⟨hyp, hyu⟩ := hlift₀ y state hys hy
    have hyq : y ≠ q := by
      rintro rfl
      rcases hfresh with hqp | hdead
      · exact hyp hqp
      · exact hdead (hlive y hy.2.live)
    exact ⟨hyq, hlift y state hys hyq hyu⟩

/-- What becomes of a stack that is given a token or a node. -/
def moving (G : Grammar C) (t : Tree C) : Stack C → Saturation.Turn (Stack C)
  | .root _ => .becomes (some (.accept t)) []
  | .accept _ => .stays
  | .frame top parent => G.moved t top parent

theorem next_moving (h : Given G start w.heap t s state) :
    moving G t state ≠ .stays ∧ (moving G t state).next = G.nextToken t state := by
  cases h with
  | root => exact ⟨by simp [moving], rfl⟩
  | @frame s p i k c r todo node parent =>
    refine ⟨?_, next_moved⟩
    simp only [moving, Grammar.moved]
    split <;> simp

/-- The place of a state in the list, if it is still there. -/
def place (s : ℕ) (turn : Saturation.Turn (Stack C)) (state : Stack C) : List ℕ :=
  ((turn.kept state).map fun _ => s).toList

/-- What a turn with a current state leaves: the other ones as they were, and new ones apart
from them. -/
structure Turned (G : Grammar C) (start : C) (w w' : Forest C) (front : List ℕ) (s : ℕ)
    (back : List ℕ) (state : Stack C) (turn : Saturation.Turn (Stack C)) (ids : List ℕ) :
    Prop where
  linked : Linked w'
  current : w'.current = front ++ place s turn state ++ back ++ ids
  kept : ∀ state', turn.kept state = some state' → Tip G start w'.heap s state'
  added : List.Forall₂ (Tip G start w'.heap) ids turn.added
  once : (place s turn state ++ ids).Nodup
  apart : ∀ x ∈ ids, x = s ∨ ∀ state', ¬ Tip G start w.heap x state'
  others : ∀ y state', y ≠ s → Tip G start w.heap y state' → Tip G start w'.heap y state'

omit [DecidableEq C] in
theorem mem_place {turn : Saturation.Turn (Stack C)} (h : x ∈ place s turn state) : x = s := by
  unfold place at h
  cases hkept : turn.kept state with
  | none => simp [hkept] at h
  | some state' => simpa [hkept] using h

omit [DecidableEq C] in
/-- All the states that come after a turn. -/
theorem Turned.tips {turn : Saturation.Turn (Stack C)} {ids : List ℕ}
    (h : Turned G start w w' front s back state turn ids) (hturn : turn ≠ .stays) :
    List.Forall₂ (Tip G start w'.heap) (place s turn state ++ ids) turn.next := by
  cases turn with
  | stays => exact absurd rfl hturn
  | becomes inPlace added =>
    cases inPlace with
    | none => exact h.added
    | some after => exact List.Forall₂.cons (h.kept after rfl) h.added

omit [DecidableEq C] in
theorem forward_turned {state' : Stack C} (hlinked : Linked w)
    (hleaf : (w.heap s).fChildren = []) (hcurrent : w.current = front ++ s :: back)
    (h : Stands G start (w.forward s).heap s state') :
    Turned G start w (w.forward s) front s back state (.becomes (some state') []) [] := by
  refine ⟨hlinked.modify rfl rfl rfl, ?_, fun after hafter => ?_, List.Forall₂.nil, ?_,
    fun x hx => absurd hx List.not_mem_nil, fun y state'' hne hy => ?_⟩
  · change w.current = _
    simpa [place, Saturation.Turn.kept] using hcurrent
  · obtain rfl := Option.some.inj hafter
    refine ⟨?_, h⟩
    rw [forward, modify_heap_self]
    exact hleaf
  · simp [place, Saturation.Turn.kept]
  · exact hy.modify hne (hlinked.not_above_leaf hleaf hne) _

/-- After a reduction the states that are left are not the one that goes on. -/
theorem Reduced.left {v : Forest C} {q : ℕ} {ids : List ℕ} {tree : Tree C}
    (h : Reduced G start w v s q ids c tree parent)
    (htips : ∀ y ∈ front ++ back, y ≠ s ∧ ∃ state', Tip G start w.heap y state') :
    ∀ y ∈ (front ++ back ++ ids) ++ [], y ≠ q ∧ ∃ state', Tip G start v.heap y state' := by
  intro y hy
  rw [List.append_nil] at hy
  rcases List.mem_append.mp hy with hy | hy
  · obtain ⟨hys, state', htip⟩ := htips y hy
    exact ⟨(h.others y state' hys htip).1, state', (h.others y state' hys htip).2⟩
  · have hflip : List.Forall₂ (fun state' y => Tip G start v.heap y state') _ ids := h.added.flip
    obtain ⟨state', -, htip⟩ := Pieces.exists_of_forall₂ hflip hy
    exact ⟨(h.fresh y hy).1, state', htip⟩

/-- A reduction and the turn of the state that goes on are one turn. -/
theorem Reduced.turned {v : Forest C} {q i : ℕ} {ids more : List ℕ} {item : Item C}
    {node : List (Tree C)} (h : Reduced G start w v s q ids c (.node c i (node ++ [t])) parent)
    (htips : ∀ y ∈ front ++ back, y ≠ s ∧ ∃ state', Tip G start w.heap y state')
    (hturned : Turned G start v w' (front ++ back ++ ids) q [] parent
      (moving G (.node c i (node ++ [t])) parent) more) :
    Turned G start w w' front s back (.frame ⟨c, i, [item], node⟩ parent)
      (moving G t (.frame ⟨c, i, [item], node⟩ parent))
      (ids ++ (place q (moving G (.node c i (node ++ [t])) parent) parent ++ more)) := by
  have hleft := h.left htips
  have hmore := hturned.tips (next_moving h.given).1
  rw [(next_moving h.given).2] at hmore
  refine ⟨hturned.linked, ?_, fun state' h => (by cases h), ?_, ?_, fun x hx => ?_,
    fun y state' hys hy => ?_⟩
  · rw [hturned.current]
    simp [place, moving, Grammar.moved, Saturation.Turn.kept]
  · have hold := ((List.forall₂_and_left _ _).mpr ⟨h.fresh, h.added⟩).imp fun x state' hx =>
      hturned.others x state' hx.1.1 hx.2
    exact List.rel_append hold hmore
  · change (ids ++ (_ ++ more)).Nodup
    refine List.Nodup.append h.once hturned.once fun x hx hx' => ?_
    rcases List.mem_append.mp hx' with hx' | hx'
    · exact (h.fresh x hx).1 (mem_place hx')
    · obtain ⟨hxq, state', htip⟩ := hleft x (by simp [hx])
      rcases hturned.apart x hx' with hxq' | hnot
      · exact hxq hxq'
      · exact hnot state' htip
  · by_cases hxs : x = s
    · exact Or.inl hxs
    refine Or.inr fun state' htip => ?_
    rcases List.mem_append.mp hx with hx | hx
    · exact (h.fresh x hx).2 htip.2.live
    rcases List.mem_append.mp hx with hx | hx
    · exact h.apart state' (mem_place hx ▸ htip)
    · obtain ⟨hxq, htip'⟩ := h.others x state' hxs htip
      rcases hturned.apart x hx with hxq' | hnot
      · exact hxq hxq'
      · exact hnot state' htip'
  · obtain ⟨hyq, htip⟩ := h.others y state' hys hy
    exact hturned.others y state' hyq htip

/-- A call of `next_token()`, by induction on the parents that are reduced. -/
theorem nextToken_spec {fuel : ℕ} (hlinked : Linked w)
    (hgiven : Given G start w.heap t s state) (hleaf : (w.heap s).fChildren = [])
    (hcurrent : w.current = front ++ s :: back) (hs : s ∉ front)
    (htips : ∀ y ∈ front ++ back, y ≠ s ∧ ∃ state', Tip G start w.heap y state')
    (hfuel : state.depth < fuel) :
    ∃ w' ids, nextToken G start fuel s w = some w' ∧
      Turned G start w w' front s back state (moving G t state) ids := by
  induction state generalizing w s t front back fuel with
  | accept result => cases hgiven
  | root first =>
    obtain ⟨fuel, rfl⟩ := Nat.exists_eq_add_of_lt hfuel
    cases hgiven with
    | root hdata =>
      obtain ⟨hparent, hchoices, hindex, hposition, hnode⟩ := ParserState.fields hdata
      refine ⟨_, [], nextToken_more [some (.choices start), none] hchoices ?_ ?_,
        forward_turned hlinked hleaf hcurrent (Stands.accept ?_)⟩
      · rw [hindex]
        rfl
      · rw [hposition]
        exact Nat.lt_succ_self 1
      · rw [forward, modify_heap_self]
        simp [ParserState.data, hparent, hchoices, hindex, hposition, hnode]
  | frame top parent ih =>
    obtain ⟨c, i, todo, node⟩ := top
    obtain ⟨p, k, r, hdata, hrule, htodo, hne, hexpected, hp⟩ := hgiven.of_frame
    obtain ⟨item, items, rfl⟩ := List.exists_cons_of_ne_nil hne
    obtain ⟨fuel, rfl⟩ : ∃ m, fuel = m + 2 := ⟨fuel - 2, by simp [Stack.depth] at hfuel; omega⟩
    obtain ⟨hparent, hchoices, hindex, hposition, hnode⟩ := ParserState.fields hdata
    by_cases hitems : items = []
    · subst hitems
      obtain ⟨v, q, ids, hcall, hreduced⟩ := reduce_spec fuel hlinked hgiven hleaf
      have hrest : v.current = (front ++ back ++ ids) ++ q :: [] := by
        rw [hreduced.current, hcurrent, List.append_assoc, List.cons_append,
          List.erase_append_right _ hs, List.erase_cons_head]
        simp
      have hleft := hreduced.left htips
      have hdepth : parent.depth < fuel + 1 := by
        simp only [Stack.depth] at hfuel
        omega
      obtain ⟨w', more, hrun, hturned⟩ := ih hreduced.linked hreduced.given hreduced.leaf hrest
        (fun hq => (hleft q (by simpa using hq)).1 rfl) hleft hdepth
      exact ⟨w', _, hcall.trans hrun, hreduced.turned htips hturned⟩
    · have hlength : k + 1 < r.items.length := by
        have hdrop := congrArg List.length htodo
        have hpos := List.length_pos_iff.mpr hitems
        rw [List.length_drop, List.length_cons] at hdrop
        omega
      have hturn : moving G t (.frame ⟨c, i, item :: items, node⟩ parent) =
          .becomes (some (.frame ⟨c, i, items, node ++ [t]⟩ parent)) [] := by
        obtain ⟨next, rest, rfl⟩ := List.exists_cons_of_ne_nil hitems
        rfl
      rw [hturn]
      refine ⟨_, [], nextToken_more (r.items.map some) hchoices ?_ ?_,
        forward_turned hlinked hleaf hcurrent ?_⟩
      · rw [hindex]
        simp [Choices.rules, hrule]
      · rw [hposition]
        simpa using hlength
      · have habove := hlinked.not_above_leaf hleaf (hlinked.parent_ne hleaf hparent)
        refine Stands.frame (k := k + 1) ?_ hrule ?_ hitems (Option.getD_some ..) hexpected
          (hp.modify habove _)
        · rw [forward, modify_heap_self]
          simp [ParserState.data, hparent, hchoices, hindex, hposition, hnode]
        · rw [← List.tail_drop, htodo]
          rfl

end NextToken

section Turns

variable {t : Tree C} {front back : List ℕ}

/-- The state at hand, and the other current ones. -/
structure At (G : Grammar C) (start : C) (w : Forest C) (front : List ℕ) (s : ℕ) (back : List ℕ)
    (state : Stack C) : Prop where
  linked : Linked w
  tip : Tip G start w.heap s state
  current : w.current = front ++ s :: back
  first : s ∉ front
  others : ∀ y ∈ front ++ back, y ≠ s ∧ ∃ state', Tip G start w.heap y state'

theorem At.free (h : At G start w front s back state) :
    ∃ w', w.free s = some w' ∧ Turned G start w w' front s back state (.becomes none []) [] := by
  obtain ⟨w', hfree, hF⟩ := freed h.linked h.tip.2.live h.tip.1
  refine ⟨w', hfree, hF.linked, ?_, fun after hafter => (by cases hafter), List.Forall₂.nil,
    List.nodup_nil, fun x hx => absurd hx List.not_mem_nil, fun y after hy htip =>
      hF.tip htip hy (h.linked.not_above_leaf h.tip.1 hy)⟩
  rw [hF.current, h.current, List.erase_append_right _ h.first, List.erase_cons_head]
  simp [place, Saturation.Turn.kept]

variable [DecidableEq C]

theorem At.advance (h : At G start w front s back state) (hexpected : state.expected ≠ none)
    (t : Tree C) : ∃ w' ids, w.advance G start s t = some w' ∧
      Turned G start w w' front s back state (moving G t state) ids := by
  have hlift : ∀ y state', y ≠ s → Tip G start w.heap y state' →
      Tip G start (w.addNode s t).heap y state' := fun y state' hy htip =>
    htip.modify hy (h.linked.not_above_leaf h.tip.1 hy) _
  have hleaf : ((w.addNode s t).heap s).fChildren = [] := by
    rw [addNode, modify_heap_self]
    exact h.tip.1
  obtain ⟨w', ids, hrun, hturned⟩ := nextToken_spec (h.linked.modify rfl rfl rfl)
    (addNode_given h.tip.2 hexpected t) hleaf h.current h.first
    (fun y hy => ⟨(h.others y hy).1,
      (h.others y hy).2.imp fun state' => hlift y state' (h.others y hy).1⟩)
    (Nat.lt_succ_of_lt (h.tip.2.depth_lt h.linked))
  refine ⟨w', ids, hrun, hturned.linked, hturned.current, hturned.kept, hturned.added, hturned.once,
    fun x hx => ?_, fun y state' hy htip => hturned.others y state' hy (hlift y state' hy htip)⟩
  by_cases hxs : x = s
  · exact Or.inl hxs
  · exact Or.inr fun state' htip =>
      ((hturned.apart x hx).resolve_left hxs) state' (hlift x state' hxs htip)

theorem At.followChoices {c : C} (h : At G start w front s back state)
    (hexpected : state.expected = some (.choices c)) :
    ∃ w' ids, w.followChoices G start s c = some w' ∧
      Turned G start w w' front s back state (.becomes none (G.followedStates c state)) ids := by
  obtain ⟨u, ids, hfold, hgrown, htips⟩ : ∃ u ids,
      ((Choices.own c).rules G start).zipIdx.foldlM (fun w rule =>
        if rule.1.head? = some (some (.choices c)) then some w
        else
          let x := w.alloc (some s) (.own c) rule.2
          some (x.2.push x.1)) w = some u ∧ Grown w u s ids ∧
        List.Forall₂ (Tip G start u.heap) ids (G.followedStates c state) := by
    unfold Grammar.followedStates Choices.rules
    rw [List.zipIdx_map, List.foldlM_map]
    refine grown_foldlM _ (fun u a ha hu hs => ?_) h.linked h.tip.2
    obtain ⟨r, i⟩ := a
    have hr : (G.rules c)[i]? = some r := List.mem_zipIdx_iff_getElem?.mp ha
    by_cases hfirst : r.first = .choices c
    · refine ⟨fun _ => ?_, fun state' hchild => by simp [hfirst] at hchild⟩
      simp [Rule.items, hfirst]
    · refine ⟨fun hchild => by simp [hfirst] at hchild, fun state' hchild => ?_⟩
      simp only [hfirst, if_false, Option.some.injEq] at hchild
      subst hchild
      have hA := allocated hu (some s) (fun q hq => Option.some.inj hq ▸ hs.live) (.own c) i
      generalize hx : u.alloc (some s) (.own c) i = x at hA
      obtain ⟨x, v⟩ := x
      have hgrown : Grown u (v.push x) s [x] := by
        refine hA.grown (hA.linked.withCurrent _) (congrArg (· ++ [x]) hA.current) ?_ fun y _ => rfl
        exact congrArg ParserState.fChoices hA.state
      refine ⟨v.push x, x, ?_, hgrown, congrArg ParserState.fChildren hA.state, ?_⟩
      · simp [Rule.items, hfirst, hx]
      · exact Stands.frame (k := 0) (congrArg ParserState.data hA.state) hr rfl
          (List.cons_ne_nil _ _) rfl hexpected (hgrown.stands hs)
  refine ⟨{ u with current := u.current.erase s }, ids, ?_, hgrown.linked.withCurrent _, ?_,
    fun after hafter => (by cases hafter), htips, ?_, fun x hx => Or.inr fun state' htip => ?_,
    fun y state' hy htip => hgrown.tip hy htip⟩
  · rw [Forest.followChoices, hfold]
    rfl
  · change u.current.erase s = _
    rw [hgrown.current, h.current, List.append_assoc, List.erase_append_right _ h.first,
      List.cons_append, List.erase_cons_head]
    simp [place, Saturation.Turn.kept]
  · simpa [place, Saturation.Turn.kept] using hgrown.once
  · exact hgrown.fresh x hx htip.2.live

end Turns

end SnapCpp.Parser.Forest
