import SnapCpp.EmailSplit

/-!
The user name and the domain of an address without quotes and brackets. They are
atoms with periods between them, except that a period may end them: the scanner looks
for the end of a name in the byte behind a period, which may be a space or start a
comment, and does not look for the end of the string.
-/
namespace SnapCpp.EmailAtoms

open TldEmails EmailSplit

/-- `1*atext *("." 1*atext)`. -/
inductive DotAtom : Bytes → Prop
  | atom {w : Bytes} (hne : w ≠ []) (hatoms : ∀ b ∈ w, isAtomChar b = true) : DotAtom w
  | dot {front w : Bytes} (hfront : DotAtom front) (hne : w ≠ [])
      (hatoms : ∀ b ∈ w, isAtomChar b = true) : DotAtom (front ++ 0x2E :: w)

section Grammar

variable {b : UInt8} {l : Bytes}

theorem kind_of_atom (h : isAtomChar b = true) : kind b = .other := by
  revert b
  decide +kernel

theorem isSpace_atom (h : isAtomChar b = true) : isSpace b = false := by
  rw [isSpace, kind_of_atom h]
  rfl

theorem ne_dot_of_atom (h : isAtomChar b = true) : b ≠ 0x2E := by
  rintro rfl
  exact absurd h (by decide)

theorem DotAtom.snoc (h : DotAtom l) (hb : isAtomChar b = true) : DotAtom (l ++ [b]) := by
  have hmore : ∀ w : Bytes, (∀ c ∈ w, isAtomChar c = true) → ∀ c ∈ w ++ [b],
      isAtomChar c = true := by
    intro w hw c hc
    rcases List.mem_append.mp hc with hc | hc
    · exact hw c hc
    · rwa [List.mem_singleton.mp hc]
  cases h with
  | atom hne hatoms => exact .atom (by simp) (hmore _ hatoms)
  | dot hfront hne hatoms =>
    rw [List.append_assoc, List.cons_append]
    exact .dot hfront (by simp) (hmore _ hatoms)

theorem DotAtom.next (h : DotAtom l) (hb : isAtomChar b = true) : DotAtom (l ++ [0x2E] ++ [b]) := by
  rw [List.append_assoc]
  exact .dot h (List.cons_ne_nil b []) fun c hc => by rwa [List.mem_singleton.mp hc]

theorem DotAtom.start (hb : isAtomChar b = true) : DotAtom [b] :=
  .atom (List.cons_ne_nil b []) fun c hc => by rwa [List.mem_singleton.mp hc]

theorem last_of_atoms {w : Bytes} (front : Bytes) (hne : w ≠ [])
    (hatoms : ∀ b ∈ w, isAtomChar b = true) : ¬[0x2E] <:+ front ++ w := by
  obtain ⟨w, b, rfl⟩ := List.eq_nil_or_concat' w |>.resolve_left hne
  rw [← List.append_assoc, List.singleton_suffix_append_singleton_iff]
  exact fun heq => ne_dot_of_atom (hatoms b (by simp)) heq.symm

/-- A period does not end a name. -/
theorem DotAtom.last (h : DotAtom l) : ¬[0x2E] <:+ l := by
  cases h with
  | atom hne hatoms => exact last_of_atoms [] hne hatoms
  | dot hfront hne hatoms =>
    rename_i front w
    have hlast := last_of_atoms (front ++ [0x2E]) hne hatoms
    rwa [List.append_assoc] at hlast

end Grammar

/-- Where a text is in comments: how deep, and behind a backslash or not. -/
structure Scan where
  depth : ℕ := 0
  escaped : Bool := false
  out : Bytes := []

/-- The bytes in comments and the white space are passed over. -/
def Scan.step (st : Scan) (b : UInt8) : Scan :=
  if st.escaped then { st with escaped := false }
  else match st.depth, kind b with
    | depth, .opening => { st with depth := depth + 1 }
    | 0, .space => st
    | 0, _ => { st with out := st.out ++ [b] }
    | depth + 1, .closing => { st with depth }
    | _ + 1, .backslash => { st with escaped := true }
    | _ + 1, _ => st

/-- The bytes of a text outside of comments that are not white space. -/
def significant (s : Bytes) : Bytes := (s.foldl Scan.step {}).out

/-- A period directly in front of `@` or `>`. -/
def DotInside (l : Bytes) : Prop := [0x2E, 0x40] <:+: l ∨ [0x2E, 0x3E] <:+: l

/-- A period directly in front of `@`, of `>` or of the end. -/
def DanglingDot (l : Bytes) : Prop := DotInside l ∨ [0x2E] <:+ l

instance (l : Bytes) : Decidable (DotInside l) := inferInstanceAs (Decidable (_ ∨ _))

instance (l : Bytes) : Decidable (DanglingDot l) := inferInstanceAs (Decidable (_ ∨ _))

theorem infix_pair (l : Bytes) (b c : UInt8) :
    [0x2E, c] <:+: l ++ [b] ↔ [0x2E, c] <:+: l ∨ [0x2E] <:+ l ∧ b = c := by
  have hsuffix : [0x2E, c] <:+ l ++ [b] ↔ [0x2E] <:+ l ∧ b = c := by
    rw [List.suffix_concat_iff]
    constructor
    · rintro (hnil | ⟨t, ht, hsuffix⟩)
      · cases hnil
      · have hsplit : [0x2E] ++ [c] = t ++ [b] := ht
        obtain ⟨rfl, hlast⟩ := List.append_inj' hsplit rfl
        exact ⟨hsuffix, (List.cons.inj hlast).1.symm⟩
    · rintro ⟨hsuffix, rfl⟩
      exact .inr ⟨[0x2E], rfl, hsuffix⟩
  rw [List.infix_concat_iff, hsuffix, or_comm]

theorem dotInside_concat (l : Bytes) (b : UInt8) :
    DotInside (l ++ [b]) ↔ DotInside l ∨ [0x2E] <:+ l ∧ (b = 0x40 ∨ b = 0x3E) := by
  rw [DotInside, DotInside, infix_pair, infix_pair, and_or_left]
  exact or_or_or_comm

section Shape

variable {v : Bytes} {b : UInt8}

/-- What the scanner may have read of a name: with white space inside, which is refused
at the end, or atoms with periods between them and perhaps one behind them. -/
def Shape (v : Bytes) : Prop :=
  (∃ c ∈ trim v, isSpace c = true) ∨ v = [] ∨ DotAtom (trim v) ∨
    ∃ u, DotAtom u ∧ trim v = u ++ [0x2E]

theorem trim_eq_self (h : ∀ c ∈ v, isSpace c = false) : trim v = v := by
  rw [trim, List.rdropWhile_eq_self_iff]
  intro hne
  rw [h _ (List.getLast_mem hne)]
  decide

theorem trim_append (hb : isSpace b = false) : trim (v ++ [b]) = v ++ [b] := by
  rw [trim_concat, hb]
  rfl

/-- A byte that is no white space is added to a name without white space, or the white
space stays inside. -/
theorem shape_append (hb : isSpace b = false)
    (h : trim v = v → (∀ c ∈ v, isSpace c = false) → Shape (v ++ [b])) : Shape (v ++ [b]) := by
  by_cases hspace : ∃ c ∈ v, isSpace c = true
  · obtain ⟨c, hc, hspace⟩ := hspace
    refine .inl ⟨c, ?_, hspace⟩
    rw [trim_append hb]
    exact List.mem_append_left _ hc
  · have hclear : ∀ c ∈ v, isSpace c = false := fun c hc =>
      Bool.eq_false_iff.mpr fun htrue => hspace ⟨c, hc, htrue⟩
    exact h (trim_eq_self hclear) hclear

theorem Shape.atom (h : Shape v) (hb : isAtomChar b = true) : Shape (v ++ [b]) := by
  refine shape_append (isSpace_atom hb) fun htrim hclear => ?_
  rw [Shape, htrim] at h
  rw [Shape, trim_append (isSpace_atom hb)]
  rcases h with ⟨c, hc, hspace⟩ | rfl | hatom | ⟨u, hu, rfl⟩
  · rw [hclear c hc] at hspace
    cases hspace
  · exact .inr (.inr (.inl (.start hb)))
  · exact .inr (.inr (.inl (hatom.snoc hb)))
  · exact .inr (.inr (.inl (hu.next hb)))

theorem Shape.dot (h : Shape v) (hne : v ≠ []) (hlast : v.getLast? ≠ some 0x2E) :
    Shape (v ++ [0x2E]) := by
  refine shape_append (by decide) fun htrim hclear => ?_
  rw [Shape, htrim] at h
  rw [Shape, trim_append (by decide)]
  rcases h with ⟨c, hc, hspace⟩ | hnil | hatom | ⟨u, -, rfl⟩
  · rw [hclear c hc] at hspace
    cases hspace
  · exact absurd hnil hne
  · exact .inr (.inr (.inr ⟨v, hatom, rfl⟩))
  · exact absurd List.getLast?_concat hlast

theorem Shape.space (h : Shape v) (hne : v ≠ []) : Shape (v ++ [0x20]) := by
  have htrim : trim (v ++ [0x20]) = trim v := by
    rw [trim_concat]
    rfl
  rw [Shape, htrim]
  rcases h with hspace | hnil | hrest
  · exact .inl hspace
  · exact absurd hnil hne
  · exact .inr (.inr hrest)

/-- A name without white space is in the grammar unless a period ends it. -/
theorem Shape.dotAtom_iff (h : Shape v) (hne : trim v ≠ [])
    (hclear : ¬(trim v).any isSpace = true) :
    DotAtom (trim v) ↔ ¬[0x2E] <:+ trim v := by
  rcases h with ⟨c, hc, hspace⟩ | rfl | hatom | ⟨u, -, heq⟩
  · exact absurd (List.any_eq_true.mpr ⟨c, hc, hspace⟩) hclear
  · exact absurd rfl hne
  · exact iff_of_true hatom hatom.last
  · refine iff_of_false (fun hatom => hatom.last ?_) (not_not_intro ?_)
    · rw [heq]
      exact ⟨u, rfl⟩
    · rw [heq]
      exact ⟨u, rfl⟩

end Shape

section Steps

variable {out : Bytes} {p q : Parser} {b : UInt8}

inductive Phase (out : Bytes) (p : Parser) : Prop
  | before (foundAt : p.foundAt = false) (done : p.done = false) (username : p.username = [])
      (domain : p.domain = []) (inside : ¬DotInside out)
  | behind (foundAt : p.foundAt = true) (done : p.done = false) (domain : p.domain = [])
      (username : ¬p.username.any isSpace = true → (DotAtom p.username ↔ ¬DotInside out))
  | finished (foundAt : p.foundAt = true) (done : p.done = true)
      (names : ¬p.username.any isSpace = true → ¬p.domain.any isSpace = true →
        (DotAtom p.username ∧ DotAtom p.domain ↔ ¬DotInside out))
      (last : p.value = [] → ¬[0x2E] <:+ out)

/-- What the scanner knows, next to the significant bytes that it has read. -/
structure Tracks (out : Bytes) (p : Parser) : Prop where
  shape : Shape p.value
  last : trim p.value ≠ [] → ([0x2E] <:+ out ↔ [0x2E] <:+ trim p.value)
  phase : Phase out p

theorem Tracks.mode (h : Tracks out p) (mode : Mode) : Tracks out { p with mode } := by
  refine ⟨h.shape, h.last, ?_⟩
  cases h.phase with
  | before hfound hdone husername hdomain hinside =>
    exact .before hfound hdone husername hdomain hinside
  | behind hfound hdone hdomain husername => exact .behind hfound hdone hdomain husername
  | finished hfound hdone hnames hlast => exact .finished hfound hdone hnames hlast

theorem suffix_append : [0x2E] <:+ out ++ [b] ↔ (0x2E : UInt8) = b :=
  List.singleton_suffix_append_singleton_iff

/-- A byte of a name. -/
theorem Tracks.append (h : Tracks out p) (hspace : isSpace b = false) (hat : b ≠ 0x40)
    (hgreater : b ≠ 0x3E) (hshape : Shape (p.value ++ [b])) (mode : Mode) (foundDot : Bool) :
    Tracks (out ++ [b]) { p with mode, foundDot, value := p.value ++ [b] } := by
  have hinside : DotInside (out ++ [b]) ↔ DotInside out := by
    rw [dotInside_concat]
    simp [hat, hgreater]
  refine ⟨hshape, fun _ => ?_, ?_⟩
  · rw [trim_append hspace, suffix_append, suffix_append]
  · cases h.phase with
    | before hfound hdone husername hdomain hnot =>
      exact .before hfound hdone husername hdomain (hinside.not.mpr hnot)
    | behind hfound hdone hdomain husername =>
      exact .behind hfound hdone hdomain fun hclear =>
        (husername hclear).trans hinside.not.symm
    | finished hfound hdone hnames _ =>
      exact .finished hfound hdone
        (fun hclear hclear' => (hnames hclear hclear').trans hinside.not.symm) (by simp)

theorem Tracks.space (h : Tracks out p) (mode : Mode) :
    Tracks out { p with mode, value := if p.value = [] then [] else p.value ++ [0x20] } := by
  by_cases hne : p.value = []
  · have hsame := h.mode mode
    rw [if_pos hne]
    rw [← hne]
    exact hsame
  · rw [if_neg hne]
    have htrim : trim (p.value ++ [0x20]) = trim p.value := by
      rw [trim_concat]
      rfl
    refine ⟨h.shape.space hne, ?_, ?_⟩
    · dsimp only
      rw [htrim]
      exact h.last
    · cases h.phase with
      | before hfound hdone husername hdomain hnot =>
        exact .before hfound hdone husername hdomain hnot
      | behind hfound hdone hdomain husername => exact .behind hfound hdone hdomain husername
      | finished hfound hdone hnames _ => exact .finished hfound hdone hnames (by simp)

theorem Tracks.less (h : Tracks out p) (hq : p.less = .ok q) :
    Tracks (out ++ [0x3C]) q ∧ q.mode = .main := by
  have hinside : DotInside (out ++ [0x3C]) ↔ DotInside out := by
    rw [dotInside_concat]
    simp
  unfold Parser.less Parser.invalid at hq
  split_ifs at hq with hrefused htrim
  all_goals
    obtain rfl := Except.ok.inj hq
    simp only [Bool.or_eq_true, not_or, Bool.not_eq_true] at hrefused
    refine ⟨⟨.inr (.inl rfl), fun hne => absurd rfl hne, ?_⟩, rfl⟩
    cases h.phase with
    | before hfound hdone husername hdomain hnot =>
      exact .before hfound hdone husername hdomain (hinside.not.mpr hnot)
    | behind hfound | finished hfound => exact absurd (hrefused.1.1.2.symm.trans hfound) (by decide)

/-- The user name ends with a period when the last significant byte is one. -/
theorem Tracks.atSign (h : Tracks out p) (hq : p.atSign = .ok q) :
    Tracks (out ++ [0x40]) q ∧ q.mode = .main := by
  unfold Parser.atSign Parser.invalid Parser.null at hq
  split_ifs at hq with hrefused htrim
  obtain rfl := Except.ok.inj hq
  simp only [Bool.or_eq_true, not_or, Bool.not_eq_true] at hrefused
  refine ⟨⟨.inr (.inl rfl), fun hne => absurd rfl hne, ?_⟩, rfl⟩
  cases h.phase with
  | before hfound hdone _ hdomain hnot =>
    refine .behind rfl hdone hdomain fun hclear => ?_
    rw [dotInside_concat, h.shape.dotAtom_iff htrim hclear, ← h.last htrim]
    simp [hnot]
  | behind hfound | finished hfound => exact absurd (hrefused.1.symm.trans hfound) (by decide)

theorem Tracks.greater (h : Tracks out p) (hq : p.greater = .ok q) :
    Tracks (out ++ [0x3E]) q ∧ q.mode = .main := by
  unfold Parser.greater Parser.invalid Parser.null at hq
  split_ifs at hq with hrefused hdomain htrim hvalue
  · obtain rfl := Except.ok.inj hq
    simp only [Bool.or_eq_true, Bool.not_eq_true', not_or, Bool.not_eq_true, Bool.not_eq_false]
      at hrefused
    refine ⟨⟨.inr (.inl rfl), fun hne => absurd rfl hne, ?_⟩, rfl⟩
    cases h.phase with
    | before hfound => exact absurd (hfound.symm.trans hrefused.1.2) (by decide)
    | behind hfound hdone _ husername =>
      refine .finished hfound rfl (fun hclear hclear' => ?_) fun _ => ?_
      · rw [dotInside_concat, husername hclear, h.shape.dotAtom_iff htrim hclear', ← h.last htrim]
        simp
      · rw [suffix_append]
        decide
    | finished _ hdone => exact absurd (hrefused.2.symm.trans hdone) (by decide)
  · simp only [Bool.or_eq_true, Bool.not_eq_true', not_or, Bool.not_eq_true, Bool.not_eq_false]
      at hrefused
    cases h.phase with
    | before hfound => exact absurd (hfound.symm.trans hrefused.1.2) (by decide)
    | behind _ _ hempty => exact absurd hempty hdomain
    | finished _ hdone => exact absurd (hrefused.2.symm.trans hdone) (by decide)

end Steps

section Run

variable {st : Scan} {p q : Parser} {b : UInt8}

theorem bytes_of_kind (b : UInt8) : (kind b = .less → b = 0x3C) ∧ (kind b = .greater → b = 0x3E) ∧
    (kind b = .atSign → b = 0x40) ∧ (kind b = .dot → b = 0x2E) ∧
    (kind b = .other → b ≠ 0x40 ∧ b ≠ 0x3E) := by
  revert b
  decide +kernel

/-- The modes of the scanner outside of quotes and brackets. -/
def At (st : Scan) : Mode → Prop
  | .main => st.depth = 0 ∧ st.escaped = false
  | .space => st.depth = 0 ∧ st.escaped = false
  | .dot => st.depth = 0 ∧ st.escaped = false
  | .comment count => st.depth = count ∧ st.escaped = false ∧ 0 < count
  | .commentEscape count => st.depth = count ∧ st.escaped = true ∧ 0 < count
  | _ => False

def Follows (st : Scan) (p : Parser) : Prop := At st p.mode ∧ Tracks st.out p

/-- A byte outside of comments. -/
theorem step_outside (hdepth : st.depth = 0) (hescaped : st.escaped = false) : st.step b =
    match kind b with
    | .opening => { st with depth := 1 }
    | .space => st
    | _ => { st with out := st.out ++ [b] } := by
  obtain ⟨depth, escaped, out⟩ := st
  obtain rfl : depth = 0 := hdepth
  obtain rfl : escaped = false := hescaped
  cases hkind : kind b <;> simp [Scan.step, hkind]

theorem follows_mainStep (hdepth : st.depth = 0) (hescaped : st.escaped = false)
    (h : Tracks st.out p) (hquote : kind b ≠ .quote) (hbracket : kind b ≠ .bracket)
    (hq : p.mainStep b = .ok q) : Follows (st.step b) q := by
  obtain ⟨hless, hgreater, hatSign, hdot, hother⟩ := bytes_of_kind b
  rw [step_outside hdepth hescaped]
  rw [Parser.mainStep] at hq
  cases hkind : kind b with
  | quote => exact absurd hkind hquote
  | bracket => exact absurd hkind hbracket
  | opening =>
    simp only [hkind] at hq
    obtain rfl := Except.ok.inj hq
    exact ⟨⟨rfl, hescaped, Nat.one_pos⟩, h.mode _⟩
  | less =>
    simp only [hkind] at hq
    obtain ⟨hnext, hmode⟩ := h.less hq
    rw [hless hkind]
    refine ⟨?_, hnext⟩
    rw [hmode]
    exact ⟨hdepth, hescaped⟩
  | greater =>
    simp only [hkind] at hq
    obtain ⟨hnext, hmode⟩ := h.greater hq
    rw [hgreater hkind]
    refine ⟨?_, hnext⟩
    rw [hmode]
    exact ⟨hdepth, hescaped⟩
  | atSign =>
    simp only [hkind] at hq
    obtain ⟨hnext, hmode⟩ := h.atSign hq
    rw [hatSign hkind]
    refine ⟨?_, hnext⟩
    rw [hmode]
    exact ⟨hdepth, hescaped⟩
  | space =>
    simp only [hkind] at hq
    obtain rfl := Except.ok.inj hq
    exact ⟨⟨hdepth, hescaped⟩, h.space _⟩
  | dot =>
    simp only [hkind, Parser.dot, Parser.invalid] at hq
    split_ifs at hq with hrefused
    obtain rfl := Except.ok.inj hq
    simp only [Bool.or_eq_true, decide_eq_true_eq, not_or] at hrefused
    obtain rfl := hdot hkind
    exact ⟨⟨hdepth, hescaped⟩,
      h.append (by decide) (by decide) (by decide) (h.shape.dot hrefused.1 hrefused.2) _ _⟩
  | _ =>
    simp only [hkind, Parser.invalid] at hq
    split_ifs at hq with hatom
    obtain rfl := Except.ok.inj hq
    have hne := hother (kind_of_atom hatom)
    exact ⟨⟨hdepth, hescaped⟩,
      h.append (isSpace_atom hatom) hne.1 hne.2 (h.shape.atom hatom) _ p.foundDot⟩

theorem follows_step (h : Follows st p) (hquote : kind b ≠ .quote) (hbracket : kind b ≠ .bracket)
    (hq : p.step b = .ok q) : Follows (st.step b) q := by
  obtain ⟨hat, h⟩ := h
  rw [Parser.step] at hq
  cases hmode : p.mode with
  | main =>
    rw [hmode] at hat
    simp only [hmode] at hq
    exact follows_mainStep hat.1 hat.2 h hquote hbracket hq
  | space =>
    rw [hmode] at hat
    simp only [hmode] at hq
    by_cases hspace : isSpace b = true
    · rw [if_pos hspace] at hq
      obtain rfl := Except.ok.inj hq
      have hkind : kind b = .space := of_decide_eq_true hspace
      rw [step_outside hat.1 hat.2, hkind]
      refine ⟨?_, h⟩
      rw [hmode]
      exact hat
    · rw [if_neg hspace] at hq
      exact follows_mainStep hat.1 hat.2 h hquote hbracket hq
  | dot =>
    rw [hmode] at hat
    simp only [hmode, Parser.invalid] at hq
    split_ifs at hq
    exact follows_mainStep hat.1 hat.2 h hquote hbracket hq
  | comment count =>
    rw [hmode] at hat
    obtain ⟨hdepth, hescaped, hpos⟩ := hat
    obtain ⟨count, rfl⟩ := Nat.exists_eq_succ_of_ne_zero hpos.ne'
    simp only [hmode] at hq
    obtain ⟨depth, escaped, out⟩ := st
    obtain rfl : depth = count + 1 := hdepth
    obtain rfl : escaped = false := hescaped
    cases hkind : kind b with
    | opening =>
      simp only [hkind] at hq
      obtain rfl := Except.ok.inj hq
      simp only [Scan.step, hkind]
      exact ⟨⟨rfl, rfl, Nat.succ_pos _⟩, h.mode _⟩
    | closing =>
      simp only [hkind] at hq
      obtain rfl := Except.ok.inj hq
      simp only [Scan.step, hkind]
      refine ⟨?_, h.mode _⟩
      cases count with
      | zero => exact ⟨rfl, rfl⟩
      | succ count => exact ⟨rfl, rfl, Nat.succ_pos _⟩
    | backslash =>
      simp only [hkind] at hq
      obtain rfl := Except.ok.inj hq
      simp only [Scan.step, hkind]
      exact ⟨⟨rfl, rfl, Nat.succ_pos _⟩, h.mode _⟩
    | space =>
      simp only [hkind] at hq
      obtain rfl := Except.ok.inj hq
      simp only [Scan.step, hkind]
      refine ⟨?_, h⟩
      rw [hmode]
      exact ⟨rfl, rfl, Nat.succ_pos _⟩
    | _ =>
      simp only [hkind, Parser.invalid] at hq
      split_ifs at hq
      obtain rfl := Except.ok.inj hq
      simp only [Scan.step, hkind]
      refine ⟨?_, h⟩
      rw [hmode]
      exact ⟨rfl, rfl, Nat.succ_pos _⟩
  | commentEscape count =>
    rw [hmode] at hat
    obtain ⟨hdepth, hescaped, hpos⟩ := hat
    simp only [hmode, Parser.invalid] at hq
    split_ifs at hq
    obtain rfl := Except.ok.inj hq
    rw [Scan.step, if_pos hescaped]
    exact ⟨⟨hdepth, rfl, hpos⟩, h.mode _⟩
  | _ =>
    rw [hmode] at hat
    exact hat.elim

theorem follows_init : Follows {} {} := by
  refine ⟨⟨rfl, rfl⟩, .inr (.inl rfl), fun hne => absurd rfl hne, ?_⟩
  refine .before rfl rfl rfl rfl ?_
  rintro (⟨a, b, h⟩ | ⟨a, b, h⟩) <;> simp at h

theorem follows_foldlM {s : Bytes} (hquote : 0x22 ∉ s) (hbracket : 0x5B ∉ s)
    (h : Follows st p) (hq : s.foldlM Parser.step p = .ok q) :
    Follows (s.foldl Scan.step st) q := by
  induction s generalizing st p with
  | nil =>
    obtain rfl := Except.ok.inj hq
    exact h
  | cons b s ih =>
    rw [List.mem_cons, not_or] at hquote hbracket
    rw [List.foldlM_cons] at hq
    cases hstep : p.step b with
    | error stop =>
      rw [hstep] at hq
      cases hq
    | ok p' =>
      rw [hstep] at hq
      have hkinds : ∀ b : UInt8, (kind b = .quote → b = 0x22) ∧ (kind b = .bracket → b = 0x5B) := by
        decide +kernel
      have hkind := hkinds b
      exact ih hquote.2 hbracket.2 (follows_step h (fun heq => hquote.1 (hkind.1 heq).symm)
        (fun heq => hbracket.1 (hkind.2 heq).symm) hstep) hq

theorem eq_of_atEnd (h : p.atEnd = .ok q) : p = q := by
  unfold Parser.atEnd Parser.invalid Parser.null at h
  cases hmode : p.mode <;> simp only [hmode, reduceCtorEq] at h <;> exact Except.ok.inj h

end Run

section Names

variable (towlower : ℕ → ℕ) (tld : Bytes → TldResult)

theorem Tracks.names_iff {out domain : Bytes} {p : Parser} (h : Tracks out p)
    (hdomain : p.lastDomain = .ok domain) (hclear : ¬p.username.any isSpace = true)
    (hclear' : ¬domain.any isSpace = true) :
    DotAtom p.username ∧ DotAtom domain ↔ ¬DanglingDot out := by
  rw [DanglingDot, not_or]
  unfold Parser.lastDomain Parser.invalid Parser.null at hdomain
  cases h.phase with
  | before _ _ husername => simp [husername] at hdomain
  | behind _ hdone hempty husername =>
    simp only [hdone, hempty, Bool.false_eq_true, if_false, if_true, ne_eq, not_true_eq_false]
      at hdomain
    split_ifs at hdomain with hrefused htrim
    obtain rfl := Except.ok.inj hdomain
    rw [husername hclear, h.shape.dotAtom_iff htrim hclear', h.last htrim]
  | finished _ hdone hnames hlast =>
    simp only [hdone, if_true] at hdomain
    split_ifs at hdomain with hrefused hvalue
    obtain rfl := Except.ok.inj hdomain
    rw [hnames hclear hclear', and_iff_left (hlast (not_not.mp hvalue))]

theorem makeEmail_ok {group email fullname username domain : Bytes} {e : Email}
    (h : makeEmail towlower tld group email fullname username domain = .ok e) :
    ¬username.any isSpace = true ∧ ¬domain.any isSpace = true ∧ e.fUsername = username ∧
      e.fDomain = domain := by
  unfold makeEmail at h
  dsimp only at h
  by_cases hresult : tldOf tld (tldDomainToLowercase towlower domain) = .success
  · rw [if_neg (not_not_intro hresult)] at h
    by_cases hspace : (username.any isSpace || domain.any isSpace) = true
    · rw [if_pos hspace] at h
      cases h
    · rw [if_neg hspace] at h
      rw [Bool.or_eq_true, not_or] at hspace
      obtain rfl := Except.ok.inj h
      exact ⟨hspace.1, hspace.2, rfl, rfl⟩
  · rw [if_pos hresult] at h
    cases h

/-- `tld_email_t::parse()` of any string, of which it reads the part that is a C string. -/
def parseEntry (group email : Bytes) : Except Stop Email :=
  (parseEmail towlower tld group (email.takeWhile (· ≠ 0))).map fun e =>
    { e with fOriginalEmail := email }

/-- An address without quotes and brackets that is accepted has names in the grammar
exactly when no period stands in front of `@`, `>` or the end, apart from comments and
white space between them. -/
theorem names_dotAtom_iff (group email : Bytes) (e : Email) (hquote : 0x22 ∉ email)
    (hbracket : 0x5B ∉ email) (h : parseEntry towlower tld group email = .ok e) :
    DotAtom e.fUsername ∧ DotAtom e.fDomain ↔
      ¬DanglingDot (significant (email.takeWhile (· ≠ 0))) := by
  have hsub : ∀ b ∈ email.takeWhile (· ≠ 0), b ∈ email := fun b hb => List.takeWhile_subset _ hb
  unfold parseEntry parseEmail at h
  cases hrun : (email.takeWhile (· ≠ 0)).foldlM Parser.step {} with
  | error stop =>
    rw [hrun] at h
    cases h
  | ok p =>
    have hfollows := follows_foldlM (fun hmem => hquote (hsub _ hmem))
      (fun hmem => hbracket (hsub _ hmem)) follows_init hrun
    rw [hrun] at h
    simp only [bind, Except.bind] at h
    cases hend : p.atEnd with
    | error stop =>
      rw [hend] at h
      cases h
    | ok p' =>
    obtain rfl := eq_of_atEnd hend
    rw [hend] at h
    dsimp only at h
    cases hdomain : p.lastDomain with
    | error stop =>
      rw [hdomain] at h
      cases h
    | ok domain =>
      rw [hdomain] at h
      dsimp only at h
      obtain ⟨made, hmade, rfl⟩ : ∃ made, makeEmail towlower tld group
          (email.takeWhile (· ≠ 0)) p.fullname p.username domain = .ok made ∧
          { made with fOriginalEmail := email } = e := by
        cases hmake : makeEmail towlower tld group (email.takeWhile (· ≠ 0)) p.fullname
            p.username domain with
        | error stop =>
          rw [hmake] at h
          cases h
        | ok made =>
          rw [hmake] at h
          exact ⟨made, rfl, Except.ok.inj h⟩
      obtain ⟨hclear, hclear', husername, hname⟩ := makeEmail_ok towlower tld hmade
      have hnames := hfollows.2.names_iff hdomain hclear hclear'
      rw [← husername, ← hname] at hnames
      exact hnames

def onlyBCom (uri : Bytes) : TldResult := if uri = ascii "b.com" then .success else .notFound

theorem names_dotAtom_one : ∃ e, parseEntry id onlyBCom [] (ascii "x.y (z) @b.com") = .ok e ∧
    DotAtom e.fUsername ∧ DotAtom e.fDomain := by
  have hread : ∃ e, parseEntry id onlyBCom [] (ascii "x.y (z) @b.com") = .ok e := ⟨_, rfl⟩
  obtain ⟨e, he⟩ := hread
  exact ⟨e, he, (names_dotAtom_iff id onlyBCom [] (ascii "x.y (z) @b.com") e (by decide) (by decide)
    he).mpr (by decide)⟩

/-- The space behind the period hides that it ends the user name. -/
theorem dot_before_space : ¬∀ (towlower : ℕ → ℕ) (tld : Bytes → TldResult) (group email : Bytes)
    (e : Email), 0x22 ∉ email → 0x5B ∉ email → parseEntry towlower tld group email = .ok e →
      DotAtom e.fUsername ∧ DotAtom e.fDomain := by
  intro hall
  have hread : ∃ e, parseEntry id onlyBCom [] (ascii "a. @b.com") = .ok e ∧
      e.fUsername = [0x61] ++ [0x2E] := ⟨_, rfl, by decide⟩
  obtain ⟨e, he, husername⟩ := hread
  have hatom := (hall id onlyBCom [] (ascii "a. @b.com") e (by decide) (by decide) he).1
  rw [husername] at hatom
  exact hatom.last ⟨[0x61], rfl⟩

end Names

end SnapCpp.EmailAtoms
