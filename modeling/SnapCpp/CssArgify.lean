import SnapCpp.CssPieces

/-!
Lists of arguments. `argify()` moves the children of a node under `ARG` nodes, one for the children
between two separators, and leaves the block at the end where it is. The whitespace at the start and
in front of a separator is left out. A separator with nothing but whitespace next to it is an error,
which is not seen when the whitespace comes after the last separator.
-/
namespace SnapCpp.CssNode

open Trimming

/-- The whitespace that is removed in front of a separator, at most `count` nodes. -/
def trimArg (arg : ℕ) : ℕ → State → Except Exception State
  | 0, s => return s
  | count + 1, s => do
      if ← empty s arg then return s
      else
        let last ← getLastChild s arg
        if hasType s last .whitespace then trimArg arg count (← removeChild s arg last)
        else return s

/-- The child after `i` is missing or the block. -/
def endsList (s : State) (temp maxChildren i : ℕ) : Except Exception Bool :=
  if i + 1 = maxChildren then return true
  else do return hasType s (← getChild s temp (i + 1)) .openCurlybracket

def newArg (s : State) (n : ℕ) (separator : NodeType) : Except Exception (ℕ × State) := do
  let (arg, s) := s.make .arg (s.node n).fPosition
  let s ← setInteger s arg separator.ctorIdx
  return (arg, ← addChild s n arg)

/-- The loop of `argify()` with the number of children that are left. -/
def argifyLoop (n temp : ℕ) (separator : NodeType) (maxChildren : ℕ) :
    ℕ → State → ℕ → Except Exception (Bool × State)
  | 0, s, _ => return (true, s)
  | count + 1, s, arg => do
      let i := maxChildren - (count + 1)
      let child ← getChild s temp i
      if hasType s child .openCurlybracket then
        if i + 1 ≠ maxChildren then
          throw (.logic ("compiler.cpp:compiler::argify(): list that has an OPEN_CURLYBRACKET " ++
            "that is not the last child."))
        else return (true, ← addChild s n child)
      else if hasType s child separator then
        let s ← trimArg arg (s.node arg).fChildren.length s
        if ← empty s arg then
          if (← size s n) = 1 then
            return (false, s.report (s.node n).fPosition
              "dangling comma at the beginning of a list of arguments or selectors.")
          else
            return (false, s.report (s.node n).fPosition
              "two commas in a row are invalid in a list of arguments or selectors.")
        else if ← endsList s temp maxChildren i then
          return (false, s.report (s.node n).fPosition
            "dangling comma at the end of a list of arguments or selectors.")
        else
          let (arg, s) ← newArg s n separator
          argifyLoop n temp separator maxChildren count s arg
      else if !hasType s child .whitespace || !(← empty s arg) then
        argifyLoop n temp separator maxChildren count (← addChild s arg child) arg
      else argifyLoop n temp separator maxChildren count s arg

def argify (s : State) (n : ℕ) (separator : NodeType) : Except Exception (Bool × State) := do
  match separator with
  | .comma | .divide => pure ()
  | _ => throw (.logic "argify only supports ',' and '/' as separators.")
  let maxChildren ← size s n
  if maxChildren = 0 then return (true, s)
  else if hasType s (← getChild s n 0) .arg then return (true, s)
  else
    let (temp, s) := s.make .list (s.node n).fPosition
    let s ← takeOverChildrenOf s temp n
    let (arg, s) ← newArg s n separator
    argifyLoop n temp separator maxChildren maxChildren s arg

section Building

variable {s₀ s : State} {n c : ℕ} {separator : NodeType} {cs cur tail : List ℕ}
  {args done : List (List ℕ)}

def typeOf (s : State) (p : ℕ) : NodeType := (s.node p).fType

def argNode (s₀ : State) (n : ℕ) (separator : NodeType) (children : List ℕ) : Node :=
  { fType := .arg, fPosition := (s₀.node n).fPosition, fInteger := separator.ctorIdx,
    fChildren := children }

theorem argNode_type (s₀ : State) (n : ℕ) (separator : NodeType) (children : List ℕ) :
    (argNode s₀ n separator children).fType = .arg := rfl

/-- The node `n` has got some arguments and what comes after them. The list of its children is kept
in the first new node, and the arguments are the nodes after that one. -/
structure Built (s₀ : State) (n : ℕ) (separator : NodeType) (cs : List ℕ) (args : List (List ℕ))
    (tail : List ℕ) (s : State) : Prop where
  size : s.size = s₀.size + 1 + args.length
  kept : ∀ p < s₀.size, p ≠ n → s.node p = s₀.node p
  parent : s.node n =
    { s₀.node n with fChildren := List.range' (s₀.size + 1) args.length ++ tail }
  list : s.node s₀.size = { fType := .list, fPosition := (s₀.node n).fPosition, fChildren := cs }
  nodes : ∀ i, (h : i < args.length) → s.node (s₀.size + 1 + i) = argNode s₀ n separator args[i]
  old : ∀ a ∈ args, ∀ c ∈ a, c < s₀.size

theorem Built.type_eq (h : Built s₀ n separator cs args tail s) (hc : c < s₀.size) :
    typeOf s c = typeOf s₀ c := by
  by_cases hn : c = n
  · rw [hn, typeOf, h.parent]
    rfl
  · rw [typeOf, h.kept c hc hn]
    rfl

theorem Built.hasType_eq (h : Built s₀ n separator cs args tail s) (hc : c < s₀.size)
    (type : NodeType) : hasType s c type = hasType s₀ c type := by
  have htype := h.type_eq hc
  rw [typeOf, typeOf] at htype
  rw [hasType, hasType, htype]

theorem Built.last (h : Built s₀ n separator cs (done ++ [cur]) tail s) :
    s.node (s₀.size + 1 + done.length) = argNode s₀ n separator cur := by
  have hlast := h.nodes done.length (by simp)
  rwa [List.getElem_concat_length rfl] at hlast

/-- The children of the last argument are replaced. -/
theorem Built.set (h : Built s₀ n separator cs (done ++ [cur]) tail s) (hn : n < s₀.size)
    {children : List ℕ} (hold : ∀ c ∈ children, c < s₀.size) :
    Built s₀ n separator cs (done ++ [children]) tail
      (s.set (s₀.size + 1 + done.length) (argNode s₀ n separator children)) := by
  refine ⟨?_, ?_, ?_, ?_, ?_, ?_⟩
  · rw [State.set_size, h.size, List.length_append, List.length_append]
    rfl
  · intro p hp hne
    rw [State.set_node_of_ne _ _ _ _ (by omega), h.kept p hp hne]
  · rw [State.set_node_of_ne _ _ _ _ (by omega), h.parent, List.length_append, List.length_append]
    rfl
  · rw [State.set_node_of_ne _ _ _ _ (by omega), h.list]
  · intro i hi
    by_cases hlast : i = done.length
    · subst hlast
      rw [State.set_node_self, List.getElem_concat_length rfl]
    · have hlength : i < done.length := by
        rw [List.length_append, List.length_singleton] at hi
        omega
      rw [State.set_node_of_ne _ _ _ _ (by omega), h.nodes i (by simp; omega),
        List.getElem_append_left hlength, List.getElem_append_left hlength]
  · intro a ha
    rcases List.mem_append.mp ha with ha | ha
    · exact h.old a (List.mem_append_left _ ha)
    · rwa [List.mem_singleton.mp ha]

theorem appendChild_congr {type type' : ℕ → NodeType} {l : List ℕ} (hc : type c = type' c)
    (hl : ∀ w ∈ l, type w = type' w) : appendChild type l c = appendChild type' l c := by
  have hlast : (∀ w ∈ l.getLast?, type w ≠ .whitespace) ↔
      ∀ w ∈ l.getLast?, type' w ≠ .whitespace :=
    forall₂_congr fun w hw => by rw [hl w (List.mem_of_getLast? hw)]
  rw [appendChild, appendChild, hc]
  simp only [hlast]

theorem Built.addChild (h : Built s₀ n separator cs (done ++ [cur]) tail s) (hn : n < s₀.size)
    (hc : c < s₀.size) :
    ∃ t, addChild s (s₀.size + 1 + done.length) c = .ok t ∧
      Built s₀ n separator cs (done ++ [appendChild (typeOf s₀) cur c]) tail t := by
  have hcur : ∀ w ∈ cur, w < s₀.size := h.old cur (by simp)
  have happend : appendChild (fun q => (s.node q).fType) cur c =
      appendChild (typeOf s₀) cur c :=
    appendChild_congr (h.type_eq hc) fun w hw => h.type_eq (hcur w hw)
  have hold : ∀ w ∈ appendChild (typeOf s₀) cur c, w < s₀.size := by
    intro w hw
    rw [appendChild] at hw
    split_ifs at hw
    · rcases List.mem_append.mp hw with hw | hw
      · exact hcur w hw
      · rwa [List.mem_singleton.mp hw]
    · exact hcur w hw
  refine ⟨_, ?_, h.set hn hold⟩
  rw [CssNode.addChild, h.last]
  change Except.ok _ = Except.ok _
  rw [show (argNode s₀ n separator cur).fChildren = cur from rfl, happend]
  rfl

theorem Built.empty (h : Built s₀ n separator cs (done ++ [cur]) tail s) :
    empty s (s₀.size + 1 + done.length) = .ok cur.isEmpty := by
  rw [CssNode.empty, h.last]
  rfl

theorem Built.getChild (h : Built s₀ n separator cs args tail s) {i : ℕ} (hi : cs[i]? = some c) :
    getChild s s₀.size i = .ok c := by
  rw [CssNode.getChild, h.list]
  simp only [hi]
  rfl

theorem ok_bind {α β : Type} (a : α) (f : α → Except Exception β) : (Except.ok a >>= f) = f a :=
  rfl

theorem Built.getLastChild (h : Built s₀ n separator cs (done ++ [cur]) tail s)
    (hc : cur.getLast? = some c) : getLastChild s (s₀.size + 1 + done.length) = .ok c := by
  rw [CssNode.getLastChild, h.last]
  simp only [argNode, hc]
  rfl

theorem Built.removeChild (h : Built s₀ n separator cs (done ++ [cur]) tail s) (hn : n < s₀.size)
    (hc : c ∈ cur) :
    ∃ t, removeChild s (s₀.size + 1 + done.length) c = .ok t ∧
      Built s₀ n separator cs (done ++ [cur.erase c]) tail t := by
  refine ⟨_, ?_, h.set hn fun w hw => h.old cur (by simp) w (List.mem_of_mem_erase hw)⟩
  rw [CssNode.removeChild, h.last]
  change (if c ∈ cur then Except.ok _ else Except.error _) = _
  rw [if_pos hc]
  rfl

theorem Built.count (h : Built s₀ n separator cs args tail s)
    (hsupports : supportsChildren (s₀.node n).fType) :
    CssNode.size s n = .ok (s.node n).fChildren.length := by
  have htype : (s.node n).fType = (s₀.node n).fType := by rw [h.parent]
  rw [CssNode.size, htype, typeSupportsChildren, if_pos hsupports]
  rfl

/-- The whitespace at the end of the last argument is removed. -/
theorem Built.trimArg (h : Built s₀ n separator cs (done ++ [cur]) tail s) (hn : n < s₀.size)
    (count : ℕ) :
    ∃ t, trimArg (s₀.size + 1 + done.length) count s = .ok t ∧
      Built s₀ n separator cs (done ++ [trimChildren (typeOf s₀) count cur]) tail t := by
  induction count generalizing s cur with
  | zero => exact ⟨s, rfl, h⟩
  | succ count ih =>
    rw [CssNode.trimArg, h.empty, ok_bind, trimChildren]
    cases hlast : cur.getLast? with
    | none =>
      rw [List.getLast?_eq_none_iff.mp hlast] at h ⊢
      exact ⟨s, rfl, h⟩
    | some last =>
      have hmem : last ∈ cur := List.mem_of_getLast? hlast
      have hne : cur.isEmpty = false := by
        cases cur with
        | nil => cases hlast
        | cons => rfl
      rw [hne, if_neg (by simp), h.getLastChild hlast, ok_bind,
        h.hasType_eq (h.old cur (by simp) last hmem)]
      change ∃ t, (if decide (typeOf s₀ last = .whitespace) = true then _ else _) = _ ∧ _
      by_cases hspace : typeOf s₀ last = .whitespace
      · obtain ⟨t, hremove, ht⟩ := h.removeChild hn hmem
        rw [if_pos (decide_eq_true hspace), hremove, ok_bind]
        simp only [if_pos hspace]
        exact ih ht
      · rw [if_neg (by simpa using hspace)]
        simp only [if_neg hspace]
        exact ⟨s, rfl, h⟩

theorem addChild_append {p : ℕ} (hsupports : supportsChildren (s.node p).fType)
    (hend : (s.node c).fType ≠ .eofToken) (hspace : (s.node c).fType ≠ .whitespace) :
    addChild s p c =
      .ok (s.set p { s.node p with fChildren := (s.node p).fChildren ++ [c] }) := by
  have happend : appendChild (fun q => (s.node q).fType) (s.node p).fChildren c =
      (s.node p).fChildren ++ [c] := if_pos ⟨hend, Or.inl hspace⟩
  rw [addChild, typeSupportsChildren, if_pos hsupports, ok_bind, happend]
  rfl

/-- A new argument is the last child of `n`. -/
theorem newArg_spec (hn : n < s.size) (hsupports : supportsChildren (s.node n).fType)
    (separator : NodeType) :
    ∃ t, newArg s n separator = .ok (s.size, t) ∧ t.size = s.size + 1 ∧
      t.node s.size = argNode s n separator [] ∧
      t.node n = { s.node n with fChildren := (s.node n).fChildren ++ [s.size] } ∧
      ∀ p < s.size, p ≠ n → t.node p = s.node p := by
  have hne : n ≠ s.size := hn.ne
  let u : State := { s.set s.size (argNode s n separator []) with size := s.size + 1 }
  have hu : u.node n = s.node n := State.set_node_of_ne _ _ _ _ hne
  have hnew : u.node s.size = argNode s n separator [] := State.set_node_self _ _ _
  have hinteger : setInteger (s.make .arg (s.node n).fPosition).2 s.size separator.ctorIdx =
      .ok u := by
    simp [setInteger, State.make, State.set, typeSupportsInteger, argNode, u]
  have hadd := addChild_append (s := u) (p := n) (c := s.size) (by rwa [hu])
    (by rw [hnew, argNode_type]; decide) (by rw [hnew, argNode_type]; decide)
  refine ⟨u.set n { u.node n with fChildren := (u.node n).fChildren ++ [s.size] },
    ?_, rfl, ?_, ?_, ?_⟩
  · rw [newArg]
    change (setInteger (s.make .arg (s.node n).fPosition).2 s.size separator.ctorIdx >>= fun s' =>
      addChild s' n s.size >>= fun s'' => Except.ok (s.size, s'')) = _
    rw [hinteger, ok_bind, hadd, ok_bind]
  · rw [State.set_node_of_ne _ _ _ _ hne.symm, hnew]
  · rw [State.set_node_self, hu]
  · intro p hp hpn
    rw [State.set_node_of_ne _ _ _ _ hpn]
    exact State.set_node_of_ne _ _ _ _ hp.ne

/-- Another argument follows. -/
theorem Built.newArg (h : Built s₀ n separator cs args [] s) (hn : n < s₀.size)
    (hsupports : supportsChildren (s₀.node n).fType) :
    ∃ t, newArg s n separator = .ok (s₀.size + 1 + args.length, t) ∧
      Built s₀ n separator cs (args ++ [[]]) [] t := by
  have hsize := h.size
  have hposition : (s.node n).fPosition = (s₀.node n).fPosition := by
    rw [h.parent]
  obtain ⟨t, hnew, htsize, harg, hparent, hkept⟩ :=
    newArg_spec (s := s) (n := n) (by omega) (by rw [h.parent]; exact hsupports) separator
  refine ⟨t, by rw [hnew, hsize], ?_, ?_, ?_, ?_, ?_, ?_⟩
  · rw [htsize, hsize, List.length_append]
    rfl
  · intro p hp hpn
    rw [hkept p (by omega) hpn, h.kept p hp hpn]
  · rw [hparent, h.parent, hsize, List.length_append, List.length_singleton,
      List.range'_concat, List.append_nil, List.append_nil, Nat.one_mul]
  · rw [hkept _ (by omega) (by omega), h.list]
  · intro i hi
    by_cases hlast : i = args.length
    · subst hlast
      rw [List.getElem_concat_length rfl, ← hsize, harg, argNode, argNode, hposition]
    · have hlength : i < args.length := by
        rw [List.length_append, List.length_singleton] at hi
        omega
      rw [hkept _ (by omega) (by omega), h.nodes i hlength, List.getElem_append_left hlength]
  · intro a ha
    rcases List.mem_append.mp ha with ha | ha
    · exact h.old a ha
    · rw [List.mem_singleton.mp ha]
      intro c hc
      cases hc

theorem Built.addBlock (h : Built s₀ n separator cs args [] s) (hn : n < s₀.size)
    (hsupports : supportsChildren (s₀.node n).fType) (hc : c < s₀.size)
    (hblock : typeOf s₀ c = .openCurlybracket) :
    ∃ t, CssNode.addChild s n c = .ok t ∧ Built s₀ n separator cs args [c] t := by
  have htype : (s.node c).fType = .openCurlybracket := (h.type_eq hc).trans hblock
  have hadd := addChild_append (s := s) (p := n) (c := c) (by rw [h.parent]; exact hsupports)
    (by rw [htype]; decide) (by rw [htype]; decide)
  refine ⟨_, hadd, h.size, ?_, ?_, ?_, ?_, h.old⟩
  · intro p hp hpn
    rw [State.set_node_of_ne _ _ _ _ hpn, h.kept p hp hpn]
  · rw [State.set_node_self, h.parent, List.append_nil]
  · rw [State.set_node_of_ne _ _ _ _ (by omega), h.list]
  · intro i hi
    rw [State.set_node_of_ne _ _ _ _ (by omega), h.nodes i hi]

theorem Built.report (h : Built s₀ n separator cs args tail s) (pos : Position) (text : String) :
    Built s₀ n separator cs args tail (s.report pos text) :=
  ⟨h.size, h.kept, h.parent, h.list, h.nodes, h.old⟩

end Building

section Loop

variable {s₀ s : State} {n c : ℕ} {separator : NodeType} {cs cur p rest body block : List ℕ}
  {done : List (List ℕ)} (front : List ℕ)

theorem hasType_eq_false (h : typeOf s c ≠ type) : hasType s c type = false :=
  decide_eq_false h

theorem hasType_eq_true (h : typeOf s c = type) : hasType s c type = true :=
  decide_eq_true h

theorem getElem?_child (hlist : cs = front ++ c :: rest) :
    cs[cs.length - (rest.length + 1)]? = some c := by
  have hindex : cs.length - (rest.length + 1) = front.length := by
    rw [hlist, List.length_append, List.length_cons, Nat.add_sub_cancel]
  rw [hindex, hlist, List.getElem?_append_right le_rfl, Nat.sub_self]
  rfl

theorem Built.turn (h : Built s₀ n separator cs (done ++ [cur]) [] s) (hn : n < s₀.size)
    (hcs : ∀ c ∈ cs, c < s₀.size) (hlist : cs = front ++ c :: rest)
    (hblock : typeOf s₀ c ≠ .openCurlybracket) (hseparator : typeOf s₀ c ≠ separator) :
    ∃ t, argifyLoop n s₀.size separator cs.length (rest.length + 1) s
          (s₀.size + 1 + done.length) =
        argifyLoop n s₀.size separator cs.length rest.length t (s₀.size + 1 + done.length) ∧
      Built s₀ n separator cs (done ++ [keepChild (typeOf s₀) cur c]) [] t := by
  have hc : c < s₀.size := hcs c (by rw [hlist]; simp)
  rw [argifyLoop, h.getChild (getElem?_child front hlist), ok_bind, h.hasType_eq hc,
    h.hasType_eq hc, hasType_eq_false hblock, if_neg (by simp), hasType_eq_false hseparator,
    if_neg (by simp), h.empty, ok_bind, h.hasType_eq hc, keepChild]
  by_cases hkeep : typeOf s₀ c ≠ .whitespace ∨ cur ≠ []
  · obtain ⟨t, hadd, ht⟩ := h.addChild hn hc
    refine ⟨t, ?_, by rwa [if_pos hkeep]⟩
    have hcond : (!hasType s₀ c .whitespace || !cur.isEmpty) = true := by
      rcases hkeep with hspace | hcur
      · rw [hasType_eq_false hspace]
        rfl
      · simp [hcur]
    rw [if_pos hcond, hadd, ok_bind]
  · refine ⟨s, ?_, by rwa [if_neg hkeep]⟩
    rw [not_or, not_not, not_not] at hkeep
    rw [hasType_eq_true hkeep.1, hkeep.2]
    rfl

theorem Built.turns (h : Built s₀ n separator cs (done ++ [cur]) [] s) (hn : n < s₀.size)
    (hcs : ∀ c ∈ cs, c < s₀.size) (hlist : cs = front ++ (p ++ rest))
    (hplain : ∀ c ∈ p, typeOf s₀ c ≠ .openCurlybracket ∧ typeOf s₀ c ≠ separator) :
    ∃ t, argifyLoop n s₀.size separator cs.length (p ++ rest).length s
          (s₀.size + 1 + done.length) =
        argifyLoop n s₀.size separator cs.length rest.length t (s₀.size + 1 + done.length) ∧
      Built s₀ n separator cs (done ++ [keepAll (typeOf s₀) cur p]) [] t := by
  induction p generalizing front cur s with
  | nil => exact ⟨s, rfl, h⟩
  | cons c p ih =>
    obtain ⟨hc, hp⟩ := List.forall_mem_cons.mp hplain
    rw [List.cons_append] at hlist
    obtain ⟨t, hturn, ht⟩ := h.turn front hn hcs hlist hc.1 hc.2
    obtain ⟨u, hturns, hu⟩ := ih (front ++ [c]) ht
      (by rw [hlist, List.append_assoc, List.singleton_append]) hp
    exact ⟨u, hturn.trans hturns, hu⟩

def IsBlock (s₀ : State) (block : List ℕ) : Prop :=
  block = [] ∨ ∃ b, block = [b] ∧ typeOf s₀ b = .openCurlybracket

theorem Built.turnBlock (h : Built s₀ n separator cs (done ++ [cur]) [] s) (hn : n < s₀.size)
    (hsupports : supportsChildren (s₀.node n).fType) (hcs : ∀ c ∈ cs, c < s₀.size)
    (hlist : cs = front ++ block) (hblock : IsBlock s₀ block) :
    ∃ t, argifyLoop n s₀.size separator cs.length block.length s (s₀.size + 1 + done.length) =
        .ok (true, t) ∧
      Built s₀ n separator cs (done ++ [cur]) block t := by
  rcases hblock with rfl | ⟨b, rfl, hb⟩
  · exact ⟨s, rfl, h⟩
  · have hold : b < s₀.size := hcs b (by rw [hlist]; simp)
    obtain ⟨t, hadd, ht⟩ := h.addBlock hn hsupports hold hb
    refine ⟨t, ?_, ht⟩
    have hlast : cs.length - (([] : List ℕ).length + 1) + 1 = cs.length := by
      rw [hlist, List.length_append]
      rfl
    rw [List.length_cons, argifyLoop, h.getChild (getElem?_child front hlist), ok_bind,
      h.hasType_eq hold, hasType_eq_true hb, if_pos rfl, if_neg (not_not.mpr hlast), hadd, ok_bind]
    rfl

/-- What is seen behind a separator. -/
theorem Built.endsList {args : List (List ℕ)} (h : Built s₀ n separator cs args [] s)
    (hcs : ∀ c ∈ cs, c < s₀.size) (hlist : cs = front ++ c :: (rest ++ block))
    (hrest : ∀ d ∈ rest, typeOf s₀ d ≠ .openCurlybracket) (hblock : IsBlock s₀ block) :
    endsList s s₀.size cs.length (cs.length - ((rest ++ block).length + 1)) =
      .ok rest.isEmpty := by
  have hnext : ∀ d l, rest ++ block = d :: l →
      CssNode.endsList s s₀.size cs.length (cs.length - ((rest ++ block).length + 1)) =
        .ok (hasType s₀ d .openCurlybracket) := by
    intro d l hd
    have hlist' : cs = (front ++ [c]) ++ d :: l := by
      rw [hlist, hd, List.append_assoc, List.singleton_append]
    have hlength := congrArg List.length hlist'
    rw [List.length_append, List.length_append, List.length_singleton, List.length_cons] at hlength
    have hindex : cs.length - ((d :: l).length + 1) + 1 = cs.length - (l.length + 1) := by
      rw [List.length_cons]
      omega
    have hne : cs.length - (l.length + 1) ≠ cs.length := by omega
    rw [hd, CssNode.endsList, hindex, if_neg hne, h.getChild (getElem?_child _ hlist'), ok_bind,
      h.hasType_eq (hcs d (by rw [hlist']; simp))]
    rfl
  cases rest with
  | nil =>
    rcases hblock with rfl | ⟨b, rfl, hb⟩
    · have hlast : cs.length - ((([] : List ℕ) ++ []).length + 1) + 1 = cs.length := by
        rw [hlist, List.length_append]
        rfl
      rw [CssNode.endsList, if_pos hlast]
      rfl
    · rw [hnext b [] rfl, hasType_eq_true hb]
      rfl
  | cons d rest =>
    rw [hnext d (rest ++ block) rfl, hasType_eq_false (hrest d List.mem_cons_self)]
    rfl

theorem Built.turnSeparator (h : Built s₀ n separator cs (done ++ [cur]) [] s) (arg : List ℕ)
    (hn : n < s₀.size) (hsupports : supportsChildren (s₀.node n).fType)
    (hcs : ∀ c ∈ cs, c < s₀.size) (hlist : cs = front ++ c :: (rest ++ block))
    (hc : typeOf s₀ c = separator) (hseparator : separator ≠ .openCurlybracket)
    (hrest : ∀ d ∈ rest, typeOf s₀ d ≠ .openCurlybracket) (hblock : IsBlock s₀ block)
    (harg : arg = trimChildren (typeOf s₀) cur.length cur) :
    (∃ t, (arg = [] ∨ rest = []) ∧
        argifyLoop n s₀.size separator cs.length ((rest ++ block).length + 1) s
          (s₀.size + 1 + done.length) = .ok (false, t) ∧
        Built s₀ n separator cs (done ++ [arg]) [] t) ∨
      ∃ t, arg ≠ [] ∧ rest ≠ [] ∧
        argifyLoop n s₀.size separator cs.length ((rest ++ block).length + 1) s
            (s₀.size + 1 + done.length) =
          argifyLoop n s₀.size separator cs.length (rest ++ block).length t
            (s₀.size + 1 + (done ++ [arg]).length) ∧
        Built s₀ n separator cs (done ++ [arg] ++ [[]]) [] t := by
  have hold : c < s₀.size := hcs c (by rw [hlist]; simp)
  have hcurly : typeOf s₀ c ≠ .openCurlybracket := hc ▸ hseparator
  have hcount : (s.node (s₀.size + 1 + done.length)).fChildren.length = cur.length := by
    rw [h.last]
    rfl
  obtain ⟨t, htrim, ht⟩ := h.trimArg hn cur.length
  rw [← harg] at ht
  rw [argifyLoop, h.getChild (getElem?_child front hlist), ok_bind, h.hasType_eq hold,
    h.hasType_eq hold, hasType_eq_false hcurly, if_neg (by simp), hasType_eq_true hc, if_pos rfl,
    hcount, htrim, ok_bind, ht.empty, ok_bind]
  by_cases hnil : arg = []
  · rw [hnil, List.isEmpty_nil, if_pos rfl, ht.count hsupports, ok_bind]
    refine Or.inl ?_
    split_ifs
    · exact ⟨_, Or.inl rfl, rfl, (hnil ▸ ht).report _ _⟩
    · exact ⟨_, Or.inl rfl, rfl, (hnil ▸ ht).report _ _⟩
  · rw [if_neg (by simpa using hnil), ht.endsList front hcs hlist hrest hblock, ok_bind]
    by_cases hend : rest = []
    · rw [hend, List.isEmpty_nil, if_pos rfl]
      exact Or.inl ⟨_, Or.inr rfl, rfl, ht.report _ _⟩
    · obtain ⟨u, hnew, hu⟩ := ht.newArg hn hsupports
      rw [if_neg (by simpa using hend), hnew, ok_bind]
      exact Or.inr ⟨u, hnil, hend, rfl, hu⟩

def isSeparator (s : State) (separator : NodeType) (c : ℕ) : Bool := hasType s c separator

def piecesOf (s : State) (separator : NodeType) (body : List ℕ) : List (List ℕ) :=
  body.splitOnP (isSeparator s separator)

/-- The loop makes an argument of each piece between the separators. -/
theorem Built.loop {pieces : List (List ℕ)}
    (hpieces : piecesOf s₀ separator body = pieces)
    (h : Built s₀ n separator cs (done ++ [[]]) [] s) (hn : n < s₀.size)
    (hsupports : supportsChildren (s₀.node n).fType) (hcs : ∀ c ∈ cs, c < s₀.size)
    (hlist : cs = front ++ (body ++ block)) (hseparator : separator ≠ .openCurlybracket)
    (hbody : ∀ c ∈ body, typeOf s₀ c ≠ .openCurlybracket) (hblock : IsBlock s₀ block) :
    ∃ t, argifyLoop n s₀.size separator cs.length (body ++ block).length s
          (s₀.size + 1 + done.length) = .ok ((argsOf (typeOf s₀) done pieces).1, t) ∧
      Built s₀ n separator cs (argsOf (typeOf s₀) done pieces).2
        (if (argsOf (typeOf s₀) done pieces).1 then block else []) t := by
  induction pieces generalizing body front done s with
  | nil => exact absurd hpieces (List.splitOnP_ne_nil _ _)
  | cons p pieces ih =>
    cases pieces with
    | nil =>
      obtain ⟨rfl, hplain⟩ := eq_of_splitOnP_singleton hpieces
      obtain ⟨t, hturns, ht⟩ := h.turns front hn hcs hlist fun c hc =>
        ⟨hbody c hc, of_decide_eq_false (hplain c hc)⟩
      obtain ⟨u, hend, hu⟩ := ht.turnBlock (front ++ body) hn hsupports hcs
        (by rw [hlist, List.append_assoc]) hblock
      exact ⟨u, hturns.trans hend, hu⟩
    | cons q ps =>
      obtain ⟨a, c, b, rfl, hc, ha, hb⟩ :=
        exists_cut (show _ = [p] ++ q :: ps from hpieces) (by simp) (List.cons_ne_nil q ps)
      obtain ⟨rfl, hplain⟩ := eq_of_splitOnP_singleton ha
      obtain ⟨hbodyA, hbodyC⟩ := List.forall_mem_append.mp hbody
      have hlist' : cs = front ++ (a ++ c :: (b ++ block)) := by
        rw [hlist, List.append_assoc, List.cons_append]
      have hnil : b = [] ↔ q = [] ∧ ps = [] := by
        constructor
        · rintro rfl
          rw [List.splitOnP_nil] at hb
          obtain ⟨rfl, rfl⟩ := List.cons.inj hb
          exact ⟨rfl, rfl⟩
        · rintro ⟨rfl, rfl⟩
          exact (eq_of_splitOnP_singleton hb).1
      obtain ⟨t, hturns, ht⟩ := h.turns front hn hcs hlist' fun d hd =>
        ⟨hbodyA d hd, of_decide_eq_false (hplain d hd)⟩
      have hturn := ht.turnSeparator (front ++ a) (argOf (typeOf s₀) a) hn
        hsupports hcs (by rw [hlist', List.append_assoc]) (of_decide_eq_true hc) hseparator
        (List.forall_mem_cons.mp hbodyC).2 hblock rfl
      rw [List.append_assoc, List.cons_append, hturns, argsOf]
      rcases hturn with ⟨u, hstop, hloop, hu⟩ | ⟨u, hne, hrest, hloop, hu⟩
      · by_cases harg : argOf (typeOf s₀) a = []
        · rw [if_pos harg]
          exact ⟨u, hloop, harg ▸ hu⟩
        · rw [if_neg harg, if_pos (hnil.mp (hstop.resolve_left harg))]
          exact ⟨u, hloop, hu⟩
      · rw [if_neg hne, if_neg (fun h => hrest (hnil.mpr h))]
        obtain ⟨v, hend, hv⟩ := ih (front ++ (a ++ [c])) hb hu
          (by rw [hlist', List.append_assoc, List.append_assoc]; rfl)
          (List.forall_mem_cons.mp hbodyC).2
        exact ⟨v, hloop.trans hend, hv⟩

end Loop

section Calls

variable {s : State} {n : ℕ} {separator : NodeType} {body block : List ℕ}

theorem takeOver_spec (hn : n < s.size) (hsupports : supportsChildren (s.node n).fType) :
    ∃ t, takeOverChildrenOf (s.make .list (s.node n).fPosition).2 s.size n = .ok t ∧
      t.size = s.size + 1 ∧ t.node n = { s.node n with fChildren := [] } ∧
      t.node s.size =
        { fType := .list, fPosition := (s.node n).fPosition, fChildren := (s.node n).fChildren } ∧
      ∀ p < s.size, p ≠ n → t.node p = s.node p := by
  have hne : n ≠ s.size := hn.ne
  let u := (s.make .list (s.node n).fPosition).2
  have hu : u.node n = s.node n := State.set_node_of_ne _ _ _ _ hne
  have hnew : u.node s.size = { fType := .list, fPosition := (s.node n).fPosition } :=
    State.set_node_self _ _ _
  let v := u.set s.size { u.node s.size with fChildren := (u.node n).fChildren }
  have hv : v.node n = s.node n := (State.set_node_of_ne _ _ _ _ hne).trans hu
  refine ⟨v.set n { v.node n with fChildren := [] }, ?_, rfl, ?_, ?_, ?_⟩
  · change takeOverChildrenOf u s.size n = _
    have hsupportsList : typeSupportsChildren (u.node s.size).fType = .ok () := by
      rw [hnew]
      rfl
    rw [takeOverChildrenOf, hsupportsList, ok_bind, hu, typeSupportsChildren, if_pos hsupports,
      ok_bind]
    change Except.ok _ = Except.ok (v.set n _)
    simp only [v, hnew, hu]
  · rw [State.set_node_self, hv]
  · rw [State.set_node_of_ne _ _ _ _ hne.symm]
    change (u.set s.size _).node s.size = _
    rw [State.set_node_self, hnew, hu]
  · intro p hp hpn
    rw [State.set_node_of_ne _ _ _ _ hpn]
    change (u.set s.size _).node p = _
    rw [State.set_node_of_ne _ _ _ _ hp.ne]
    exact State.set_node_of_ne _ _ _ _ hp.ne

/-- `argify()` works on the pieces between the separators. -/
theorem argify_spec (hseparator : separator = .comma ∨ separator = .divide) (hn : n < s.size)
    (hsupports : supportsChildren (s.node n).fType) (hlist : (s.node n).fChildren = body ++ block)
    (hcs : ∀ c ∈ (s.node n).fChildren, c < s.size) (hne : body ++ block ≠ [])
    (hfirst : ∀ c ∈ (s.node n).fChildren.head?, typeOf s c ≠ .arg)
    (hbody : ∀ c ∈ body, typeOf s c ≠ .openCurlybracket) (hblock : IsBlock s block)
    {result : Bool × List (List ℕ)}
    (hresult : result = argsOf (typeOf s) [] (piecesOf s separator body)) :
    ∃ t, argify s n separator = .ok (result.1, t) ∧
      Built s n separator (s.node n).fChildren result.2 (if result.1 then block else []) t := by
  obtain ⟨c, rest, hchildren⟩ := List.exists_cons_of_ne_nil (hlist ▸ hne)
  obtain ⟨u, htake, hsize, hparent, htemp, hkept⟩ := takeOver_spec hn hsupports
  obtain ⟨v, hnew, hvsize, harg, hvparent, hvkept⟩ :=
    newArg_spec (s := u) (n := n) (by omega) (by rw [hparent]; exact hsupports) separator
  have hbuilt : Built s n separator (s.node n).fChildren [[]] [] v := by
    refine ⟨by rw [hvsize, hsize]; rfl, ?_, ?_, ?_, ?_, ?_⟩
    · intro p hp hpn
      rw [hvkept p (by omega) hpn, hkept p hp hpn]
    · rw [hvparent, hparent, hsize]
      rfl
    · rw [hvkept _ (by omega) (by omega), htemp]
    · intro i hi
      obtain rfl : i = 0 := by simpa using hi
      rw [Nat.add_zero, ← hsize, harg, argNode, argNode, hparent]
      rfl
    · intro a ha d hd
      rw [List.mem_singleton.mp ha] at hd
      cases hd
  have hstart : Built s n separator (s.node n).fChildren ([] ++ [[]]) [] v := hbuilt
  obtain ⟨t, hloop, ht⟩ := hstart.loop [] rfl hn hsupports hcs hlist
    (by rcases hseparator with rfl | rfl <;> decide) hbody hblock
  refine ⟨t, ?_, hresult ▸ ht⟩
  rw [hresult, ← hloop]
  have hcount : size s n = .ok (s.node n).fChildren.length := by
    rw [size, typeSupportsChildren, if_pos hsupports]
    rfl
  have hhead : getChild s n 0 = .ok c := by
    rw [getChild, typeSupportsChildren, if_pos hsupports, hchildren]
    rfl
  have hpositive : (s.node n).fChildren.length ≠ 0 := by
    rw [hchildren]
    simp
  have htype : hasType s c .arg = false := hasType_eq_false (hfirst c (by rw [hchildren]; rfl))
  have hcalls : argify s n separator = size s n >>= fun maxChildren =>
      if maxChildren = 0 then .ok (true, s)
      else getChild s n 0 >>= fun c =>
        if hasType s c .arg then .ok (true, s)
        else takeOverChildrenOf (s.make .list (s.node n).fPosition).2 s.size n >>= fun u =>
          newArg u n separator >>= fun p =>
            argifyLoop n s.size separator maxChildren maxChildren p.2 p.1 := by
    rcases hseparator with rfl | rfl
    · rfl
    · rfl
  rw [hcalls, hcount, ok_bind, if_neg hpositive, hhead, ok_bind, htype, if_neg (by simp), htake,
    ok_bind, hnew, ok_bind, hsize, hlist]
  rfl

end Calls

section Whitespace

variable {s t : State} {n : ℕ} {separator : NodeType} {body block l : List ℕ}
  {args pieces : List (List ℕ)}

/-- A list of children in which every separator is `none`. -/
def marked (s : State) (separator : NodeType) (l : List ℕ) : List (Option ℕ) :=
  l.map fun c => if isSeparator s separator c then none else some c

def isBlank (s : State) : Option ℕ → Bool
  | none => false
  | some c => isSpace (typeOf s) c

def UpToWhitespace (s : State) (l l' : List (Option ℕ)) : Prop :=
  (l.splitOn none).map (trim (isBlank s)) = (l'.splitOn none).map (trim (isBlank s))

/-- The children of `n` are arguments, none of them empty, and the block. The children of the
arguments with one separator between them are those that were there up to whitespace. -/
def Argified (t : State) (n : ℕ) (separator : NodeType) (body block : List ℕ) : Prop :=
  ∃ args, (t.node n).fChildren = args ++ block ∧
    (∀ a ∈ args, typeOf t a = .arg ∧ (t.node a).fChildren ≠ []) ∧
    UpToWhitespace t
      ([none].intercalate (args.map fun a => marked t separator (t.node a).fChildren))
      (marked t separator body)

def Dangling (s : State) (separator : NodeType) (body : List ℕ) : Prop :=
  (∃ a x w y b, body = a ++ x :: (w ++ y :: b) ∧ isSeparator s separator x ∧
      isSeparator s separator y ∧ ∀ c ∈ w, isSpace (typeOf s) c) ∨
    (∃ w x b, body = w ++ x :: b ∧ isSeparator s separator x ∧ ∀ c ∈ w, isSpace (typeOf s) c) ∨
    ∃ a x w, body = a ++ x :: w ∧ isSeparator s separator x ∧ ∀ c ∈ w, isSpace (typeOf s) c

/-- What `argify()` is to do with the children `body` and the block. -/
def ArgifyCorrect (s : State) (n : ℕ) (separator : NodeType) (body block : List ℕ) : Prop :=
  ∃ result t, argify s n separator = .ok (result, t) ∧
    (result = true → Argified t n separator body block) ∧
    (result = false ↔ Dangling s separator body)

theorem piecesOf_plain (h : ∀ c ∈ l, isSeparator s separator c = false) :
    piecesOf s separator l = [l] := List.splitOnP_eq_singleton h

theorem piecesOf_append {a b : List ℕ} {x : ℕ} (hx : isSeparator s separator x) :
    piecesOf s separator (a ++ x :: b) = piecesOf s separator a ++ piecesOf s separator b :=
  List.splitOnP_append_cons a b hx

theorem isSeparator_of_space (hseparator : separator ≠ .whitespace) {w : List ℕ}
    (h : ∀ c ∈ w, isSpace (typeOf s) c) : ∀ c ∈ w, isSeparator s separator c = false := by
  intro c hc
  refine hasType_eq_false ?_
  rw [isSpace_iff.mp (h c hc)]
  exact hseparator.symm

theorem dangling_iff (hseparator : separator ≠ .whitespace) :
    Dangling s separator body ↔ 2 ≤ (piecesOf s separator body).length ∧
      ∃ p ∈ piecesOf s separator body, ∀ c ∈ p, isSpace (typeOf s) c := by
  have hpositive : ∀ l, 1 ≤ (piecesOf s separator l).length := fun l =>
    List.length_pos_of_ne_nil (List.splitOnP_ne_nil _ _)
  have hplain : ∀ w : List ℕ, (∀ c ∈ w, isSpace (typeOf s) c) → piecesOf s separator w = [w] :=
    fun w hw => piecesOf_plain (isSeparator_of_space hseparator hw)
  constructor
  · rintro (⟨a, x, w, y, b, rfl, hx, hy, hw⟩ | ⟨w, x, b, rfl, hx, hw⟩ | ⟨a, x, w, rfl, hx, hw⟩)
    · have := hpositive b
      rw [piecesOf_append hx, piecesOf_append hy, hplain w hw]
      exact ⟨by simp; omega, w, by simp, hw⟩
    · have := hpositive b
      rw [piecesOf_append hx, hplain w hw]
      exact ⟨by simp; omega, w, by simp, hw⟩
    · have := hpositive a
      rw [piecesOf_append hx, hplain w hw]
      exact ⟨by simp; omega, w, by simp, hw⟩
  · rintro ⟨hlength, p, hp, hspace⟩
    obtain ⟨l₁, l₂, hpieces⟩ := List.append_of_mem hp
    by_cases h₁ : l₁ = []
    · subst h₁
      have h₂ : l₂ ≠ [] := by
        rintro rfl
        rw [hpieces] at hlength
        simp at hlength
      obtain ⟨a, x, b, rfl, hx, ha, _⟩ := exists_cut (show _ = [p] ++ l₂ from hpieces) (by simp) h₂
      obtain ⟨rfl, _⟩ := eq_of_splitOnP_singleton ha
      exact Or.inr (Or.inl ⟨a, x, b, rfl, hx, hspace⟩)
    · obtain ⟨a, x, b, rfl, hx, _, hb⟩ := exists_cut hpieces h₁ (List.cons_ne_nil p l₂)
      by_cases h₂ : l₂ = []
      · subst h₂
        obtain ⟨rfl, _⟩ := eq_of_splitOnP_singleton hb
        exact Or.inr (Or.inr ⟨a, x, b, rfl, hx, hspace⟩)
      · obtain ⟨w, y, b, rfl, hy, hw, _⟩ := exists_cut (show _ = [p] ++ l₂ from hb) (by simp) h₂
        obtain ⟨rfl, _⟩ := eq_of_splitOnP_singleton hw
        exact Or.inl ⟨a, x, w, y, b, rfl, hx, hy, hspace⟩

theorem splitOn_marked (l : List ℕ) :
    (marked s separator l).splitOn none = (piecesOf s separator l).map (List.map some) := by
  induction l with
  | nil => rfl
  | cons c l ih =>
    rw [marked, List.map_cons, List.splitOn_cons_eq_if_modifyHead, piecesOf,
      List.splitOnP_cons_eq_if_modifyHead]
    by_cases hc : isSeparator s separator c
    · rw [if_pos hc, if_pos hc, if_pos (beq_self_eq_true _), List.map_cons]
      exact congrArg ([] :: ·) ih
    · rw [if_neg hc, if_neg hc, if_neg (by simp)]
      obtain ⟨p, ps, hl⟩ := List.exists_cons_of_ne_nil
        (List.splitOnP_ne_nil (isSeparator s separator) l)
      rw [piecesOf, hl] at ih
      change ((marked s separator l).splitOn none).modifyHead _ = _
      rw [ih, hl]
      rfl

theorem Built.argified_iff {cs : List ℕ} (h : Built s n separator cs args block t)
    (body : List ℕ) (hargs : args ≠ []) (hold : ∀ c ∈ body, c < s.size)
    (hsub : ∀ a ∈ args, ∃ p ∈ piecesOf s separator body, a.Sublist p) :
    Argified t n separator body block ↔ (∀ a ∈ args, a ≠ []) ∧
      args.map (trim (isSpace (typeOf s))) =
        (piecesOf s separator body).map (trim (isSpace (typeOf s))) := by
  have hplain : ∀ a ∈ args, ∀ c ∈ a, isSeparator t separator c = false := by
    intro a ha c hc
    obtain ⟨p, hp, hap⟩ := hsub a ha
    have hpiece := (mem_splitOnP hp c (hap.subset hc)).2
    rwa [isSeparator, h.hasType_eq (h.old a ha c hc)]
  have hmarked : ∀ a ∈ args, marked t separator a = a.map some := fun a ha =>
    List.map_congr_left fun c hc => by rw [hplain a ha c hc]; rfl
  have hbody : marked t separator body = marked s separator body :=
    List.map_congr_left fun c hc => by
      rw [isSeparator, isSeparator, h.hasType_eq (hold c hc)]
  -- the arguments are the nodes behind the list
  have hnodes : (List.range' (s.size + 1) args.length).map (fun a => (t.node a).fChildren) =
      args := by
    refine List.ext_getElem (by simp) fun i hi hi' => ?_
    rw [List.getElem_map, List.getElem_range', Nat.one_mul, h.nodes i hi']
    rfl
  have htype : ∀ a ∈ List.range' (s.size + 1) args.length, typeOf t a = .arg := by
    intro a ha
    obtain ⟨i, hi, rfl⟩ := List.mem_range'.mp ha
    rw [Nat.one_mul, typeOf, h.nodes i hi]
    rfl
  have htrim : ∀ l : List ℕ, (∀ c ∈ l, c < s.size) →
      trim (isBlank t) (l.map some) = (trim (isSpace (typeOf s)) l).map some := fun l hl =>
    trim_map fun c hc => by rw [isBlank, isSpace, isSpace, h.type_eq (hl c hc)]
  have hup : UpToWhitespace t ([none].intercalate (args.map (marked t separator)))
      (marked t separator body) ↔
      args.map (trim (isSpace (typeOf s))) =
        (piecesOf s separator body).map (trim (isSpace (typeOf s))) := by
    have hsome : ∀ ls : List (List ℕ), (∀ l ∈ ls, ∀ c ∈ l, c < s.size) →
        (ls.map (List.map some)).map (trim (isBlank t)) =
          (ls.map (trim (isSpace (typeOf s)))).map (List.map some) := by
      intro ls hls
      rw [List.map_map, List.map_map]
      exact List.map_congr_left fun l hl => htrim l (hls l hl)
    rw [UpToWhitespace, List.map_congr_left hmarked, List.splitOn_intercalate none (by simp)
      (by simpa using hargs), hbody, splitOn_marked, hsome args h.old,
      hsome (piecesOf s separator body) fun p hp c hc => hold c (mem_splitOnP hp c hc).1]
    exact (List.map_injective_iff.mpr
      (List.map_injective_iff.mpr fun _ _ h => Option.some.inj h)).eq_iff
  have hmap : (List.range' (s.size + 1) args.length).map
      (fun a => marked t separator (t.node a).fChildren) = args.map (marked t separator) := by
    conv => rhs; rw [← hnodes]
    rw [List.map_map]
    rfl
  rw [Argified, h.parent]
  constructor
  · rintro ⟨l, hchildren, hl, hlist⟩
    obtain rfl := List.append_cancel_right hchildren
    rw [hmap] at hlist
    refine ⟨fun a ha => ?_, hup.mp hlist⟩
    have hmem : a ∈ (List.range' (s.size + 1) args.length).map fun a => (t.node a).fChildren := by
      rw [hnodes]
      exact ha
    obtain ⟨p, hp, rfl⟩ := List.mem_map.mp hmem
    exact (hl p hp).2
  · rintro ⟨hne, hlist⟩
    refine ⟨List.range' (s.size + 1) args.length, rfl, fun a ha => ⟨htype a ha, ?_⟩, ?_⟩
    · exact hne _ (hnodes ▸ List.mem_map_of_mem ha)
    · rw [hmap]
      exact hup.mpr hlist

theorem KeepsPieces.not_stops (h : KeepsPieces (typeOf s) pieces) : ¬ Stops (typeOf s) pieces := by
  rintro (⟨p, hp, hend⟩ | ⟨_, hlast⟩)
  · exact (h.1 p (List.dropLast_subset _ hp)).keepAll_ne_nil (keepAll_nil_iff.mpr hend)
  · obtain ⟨c, hc, _⟩ := (h.1 [] (List.mem_of_getLast? hlast)).content
    cases hc

theorem KeepsPieces.not_dangling (hseparator : separator ≠ .whitespace)
    (h : KeepsPieces (typeOf s) (piecesOf s separator body)) : ¬ Dangling s separator body := by
  intro hdangling
  obtain ⟨_, p, hp, hspace⟩ := (dangling_iff hseparator).mp hdangling
  obtain ⟨c, hc, hcontent⟩ := (h.1 p hp).content
  rw [hspace c hc] at hcontent
  cases hcontent

end Whitespace

section Main

variable {s : State} {n : ℕ} {separator : NodeType} {body block : List ℕ}

/-- `argify()` does what it is to do exactly when there are no children, when there is something
between all separators that can be kept, or when an error is reported for a separator that has
nothing but whitespace next to it. -/
theorem argify_correct_iff (hseparator : separator = .comma ∨ separator = .divide)
    (hn : n < s.size) (hcs : ∀ c ∈ (s.node n).fChildren, c < s.size)
    (hsupports : supportsChildren (s.node n).fType) (hlist : (s.node n).fChildren = body ++ block)
    (hbody : ∀ c ∈ body, typeOf s c ≠ .openCurlybracket) (hblock : IsBlock s block)
    (hfirst : ∀ c ∈ (s.node n).fChildren.head?, typeOf s c ≠ .arg) :
    ArgifyCorrect s n separator body block ↔
      body ++ block = [] ∨ KeepsPieces (typeOf s) (piecesOf s separator body) ∨
        Stops (typeOf s) (piecesOf s separator body) ∧ Dangling s separator body := by
  have hspace : separator ≠ .whitespace := by
    rcases hseparator with rfl | rfl <;> decide
  by_cases hempty : body ++ block = []
  · refine iff_of_true ⟨true, s, ?_, fun _ => ?_, ?_⟩ (Or.inl hempty)
    · have hcount : size s n = .ok 0 := by
        rw [size, typeSupportsChildren, if_pos hsupports, hlist, hempty]
        rfl
      rcases hseparator with rfl | rfl
      · change (size s n >>= fun maxChildren => _) = _
        rw [hcount]
        rfl
      · change (size s n >>= fun maxChildren => _) = _
        rw [hcount]
        rfl
    · obtain ⟨rfl, rfl⟩ := List.append_eq_nil_iff.mp hempty
      exact ⟨[], hlist, fun a ha => (List.not_mem_nil ha).elim, rfl⟩
    · obtain ⟨rfl, rfl⟩ := List.append_eq_nil_iff.mp hempty
      refine iff_of_false (by simp) fun hdangling => ?_
      have hlength := ((dangling_iff hspace).mp hdangling).1
      rw [piecesOf, List.splitOnP_nil, List.length_singleton] at hlength
      omega
  · obtain ⟨t, hcall, ht⟩ :=
      argify_spec hseparator hn hsupports hlist hcs hempty hfirst hbody hblock rfl
    have hcorrect : ArgifyCorrect s n separator body block ↔
        ((argsOf (typeOf s) [] (piecesOf s separator body)).1 = true →
            Argified t n separator body block) ∧
          ((argsOf (typeOf s) [] (piecesOf s separator body)).1 = false ↔
            Dangling s separator body) := by
      constructor
      · rintro ⟨result, u, hcall', hagrees⟩
        obtain ⟨rfl, rfl⟩ := Prod.mk.inj (Except.ok.inj (hcall.symm.trans hcall'))
        exact hagrees
      · exact fun hagrees => ⟨_, t, hcall, hagrees⟩
    obtain ⟨front, last, hpieces⟩ : ∃ front last, piecesOf s separator body = front ++ [last] :=
      (List.eq_nil_or_concat' _).resolve_left (List.splitOnP_ne_nil _ _)
    rw [hcorrect]
    rcases argsOf_concat (typeOf s) [] front last with ⟨hfalse, hstops⟩ | ⟨htrue, hstops⟩
    · rw [← hpieces] at hfalse hstops
      rw [hfalse]
      constructor
      · exact fun h => Or.inr (Or.inr ⟨hstops, h.2.mp rfl⟩)
      · rintro (h | h | h)
        · exact absurd h hempty
        · exact absurd hstops h.not_stops
        · exact ⟨fun hresult => Bool.noConfusion hresult, iff_of_true rfl h.2⟩
    · rw [← hpieces] at htrue
      have hsub : ∀ a ∈ front.map (argOf (typeOf s)) ++ [keepAll (typeOf s) [] last],
          ∃ p ∈ piecesOf s separator body, a.Sublist p := by
        intro a ha
        rcases List.mem_append.mp ha with ha | ha
        · obtain ⟨p, hp, rfl⟩ := List.mem_map.mp ha
          exact ⟨p, by rw [hpieces]; exact List.mem_append_left _ hp,
            (trimChildren_sublist _ _ _).trans (keepAll_sublist _ [] p)⟩
        · rw [List.mem_singleton.mp ha]
          exact ⟨last, by rw [hpieces]; simp, keepAll_sublist _ [] last⟩
      rw [htrue, List.nil_append, if_pos rfl] at ht
      have hargified := ht.argified_iff body (by simp)
        (fun c hc => hcs c (by rw [hlist]; exact List.mem_append_left _ hc)) hsub
      rw [hpieces, keepsPieces_iff hstops] at hargified
      rw [htrue, hargified, hpieces]
      constructor
      · exact fun h => Or.inr (Or.inl (h.1 rfl))
      · rintro (h | h | h)
        · exact absurd h hempty
        · refine ⟨fun _ => h, iff_of_false (by simp) ?_⟩
          rw [← hpieces] at h
          exact h.not_dangling hspace
        · exact absurd h.1 hstops

def twoNames : State where
  node
    | 0 => { fType := .componentValue, fChildren := [1, 2, 3, 4, 5] }
    | 2 => { fType := .comma }
    | 3 => { fType := .whitespace }
    | 5 => { fType := .openCurlybracket }
    | _ => { fType := .identifier, fString := [97] }
  size := 6

theorem argify_correct_twoNames : ArgifyCorrect twoNames 0 .comma [1, 2, 3, 4] [5] := by
  refine (argify_correct_iff (Or.inl rfl) (by decide) (by decide) rfl rfl (by decide)
    (Or.inr ⟨5, rfl, rfl⟩) (by decide)).mpr (Or.inr (Or.inl ⟨?_, ?_⟩))
  · intro p hp
    have hp : p ∈ [[1], [3, 4]] := hp
    rw [List.mem_cons, List.mem_singleton] at hp
    rcases hp with rfl | rfl
    · exact ⟨⟨1, by decide, rfl⟩, ⟨by decide, List.isChain_singleton 1⟩⟩
    · exact ⟨⟨4, by decide, rfl⟩, ⟨by decide, List.isChain_singleton 4⟩⟩
  · intro p hp
    have hp : p ∈ [[1]] := hp
    rw [List.mem_singleton.mp hp]
    intro w hw
    cases hw

def trailingComma : State where
  node
    | 0 => { fType := .componentValue, fChildren := [1, 2, 3, 4] }
    | 2 => { fType := .comma }
    | 3 => { fType := .whitespace }
    | 4 => { fType := .openCurlybracket }
    | _ => { fType := .identifier, fString := [97] }
  size := 5

/-- The dangling comma is not seen behind the space: an empty argument is added. -/
theorem argify_accepts_trailing : (trailingComma.node 0).fChildren = [1, 2, 3] ++ [4] ∧
    (∀ c ∈ [1, 2, 3], typeOf trailingComma c ≠ .openCurlybracket) ∧ IsBlock trailingComma [4] ∧
    typeOf trailingComma 1 ≠ .arg ∧ ¬ ArgifyCorrect trailingComma 0 .comma [1, 2, 3] [4] := by
  refine ⟨rfl, by decide, Or.inr ⟨4, rfl, rfl⟩, by decide, ?_⟩
  rintro ⟨result, t, hcall, -, hfalse⟩
  have hresult : (argify trailingComma 0 .comma).map Prod.fst = .ok true := rfl
  rw [hcall] at hresult
  have htrue : result = true := Except.ok.inj hresult
  have hdangling : Dangling trailingComma .comma [1, 2, 3] :=
    Or.inr (Or.inr ⟨[1], 2, [3], rfl, rfl, by decide⟩)
  rw [hfalse.mpr hdangling] at htrue
  cases htrue

end Main

end SnapCpp.CssNode
