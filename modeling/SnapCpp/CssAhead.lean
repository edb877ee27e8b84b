import SnapCpp.CssTokens
import SnapCpp.CssTokenStrings

/-!
A lexer whose characters are known. Where no error is found in them, each function of the lexer
does what its characters say, and an error that it reports is there at the end.
-/
namespace SnapCpp.Css

variable {throws : Throw → Prop} {s t : Lexer} {room : ℕ} {c : ℤ} {l cs : List ℤ}

/-- The characters `l` will be read without an error, and none was reported. -/
structure Ahead (s : Lexer) (room : ℕ) (l : List ℤ) : Prop where
  codes : s.codes = l
  quiet : ∀ p ∈ characters s.fIn, p.2 = []
  pos : ∀ c ∈ l, 0 < c
  errors : s.errors = []
  room : s.fUngetc.length ≤ room

theorem Ahead.mono {room' : ℕ} (h : Ahead s room l) (hroom : room ≤ room') : Ahead s room' l :=
  { h with room := h.room.trans hroom }

theorem Ahead.less (h : Ahead s (room - 1) l) : Ahead s room l := h.mono (Nat.sub_le _ _)

theorem Ahead.getc {post : ℤ → Lexer → Prop} (h : Ahead s room (c :: l))
    (hpost : ∀ t, Ahead t (room - 1) l → post c t) : Ensures getc s throws post := by
  have hcodes := h.codes
  have hroom := h.room
  have hpos : ∀ d ∈ l, 0 < d := (List.forall_mem_cons.mp h.pos).2
  rw [Ensures, Css.getc]
  cases hunget : s.fUngetc with
  | cons d rest =>
    rw [Lexer.codes, hunget] at hcodes
    obtain ⟨rfl, hrest⟩ := List.cons.inj hcodes
    simp only [if_neg (ne_of_gt (h.pos d List.mem_cons_self))]
    rw [hunget, List.length_cons] at hroom
    refine hpost _ ⟨hrest, h.quiet, hpos, h.errors, ?_⟩
    show rest.length ≤ room - 1
    omega
  | nil =>
    rw [Lexer.codes, hunget, List.nil_append] at hcodes
    cases hin : s.fIn with
    | nil =>
      rw [hin, characters] at hcodes
      cases hcodes
    | cons b rest =>
      have hquiet := h.quiet
      rw [hin, characters_cons, List.map_cons] at hcodes
      rw [hin, characters_cons] at hquiet
      obtain ⟨hchar, hrest⟩ := List.cons.inj hcodes
      have hnone := hquiet _ List.mem_cons_self
      dsimp only at hchar hnone ⊢
      rw [hchar]
      refine hpost _ ⟨?_, (List.forall_mem_cons.mp hquiet).2, hpos, ?_, ?_⟩
      · rw [Lexer.codes]
        exact hrest
      · show s.errors ++ (readChar b rest).errors = []
        rw [h.errors, hnone, List.nil_append]
      · exact Nat.zero_le _

theorem Ahead.getc_end {post : ℤ → Lexer → Prop} (h : Ahead s room [])
    (hpost : post eof s) : Ensures Css.getc s throws post := by
  have hcodes := h.codes
  rw [Lexer.codes, List.append_eq_nil_iff] at hcodes
  have hin : s.fIn = [] := by
    cases hin : s.fIn with
    | nil => rfl
    | cons b rest =>
      rw [hin, characters_cons] at hcodes
      cases hcodes.2
  rw [Ensures, Css.getc, hcodes.1, hin]
  exact hpost

/-- What can be put back: a code that is neither null nor U+FFFD. -/
theorem Ahead.ungetc {post : Unit → Lexer → Prop} (h : Ahead s room l) (hpos : 0 < c)
    (hle : c ≤ 0x10FFFF) (hne : c ≠ replacement) (hroom : room < ungetSize)
    (hpost : ∀ t, Ahead t (room + 1) (c :: l) → post () t) :
    Ensures (ungetc c) s throws post := by
  have hr := h.room
  have hskip : ¬ (c = eof ∨ c = replacement) := by
    rintro (rfl | rfl)
    · exact absurd hpos (by decide)
    · exact hne rfl
  rw [Ensures, Css.ungetc, if_neg hskip, if_neg (by omega), if_neg (by omega)]
  refine hpost _ ⟨?_, h.quiet, List.forall_mem_cons.mpr ⟨hpos, h.pos⟩, h.errors, ?_⟩
  · rw [← h.codes]
    rfl
  · exact Nat.succ_le_succ hr

/-- U+FFFD and the end of the stream are not put back. -/
theorem ungetc_lost {post : Unit → Lexer → Prop} (hc : c = eof ∨ c = replacement)
    (hpost : post () s) : Ensures (ungetc c) s throws post := by
  rw [Ensures, Css.ungetc, if_pos hc]
  exact hpost

theorem Ahead.wctomb {post : Bytes → Lexer → Prop} (h : Ahead s room l) (hc : IsCode c)
    (hpost : Ahead s room l → post (spell [c]) s) : Ensures (wctomb c) s throws post := by
  have hbytes : spell [c] = (encoding c).1 := List.append_nil _
  have hsame : ({ s with errors := s.errors ++ (encoding c).2 } : Lexer) = s := by
    rw [show (encoding c).2 = [] from hc, List.append_nil]
  rw [hbytes] at hpost
  change post (encoding c).1 { s with errors := s.errors ++ (encoding c).2 }
  rw [hsame]
  exact hpost h

theorem Ahead.fine (h : Ahead s room l) (hle : ∀ c ∈ l, c ≤ 0x10FFFF) : Fine throws s.codes := by
  rw [h.codes]
  exact fun c hc => ⟨h.pos c hc, fun hlarge => absurd (hle c hc) (not_le.mpr hlarge)⟩

theorem IsCode.range (h : IsCode c) : 0 ≤ c ∧ c ≤ 0x10FFFF := by
  rw [IsCode, encoding] at h
  split_ifs at h <;> omega

theorem Plain.pos (h : Plain cs) : ∀ c ∈ cs, 0 < c := fun c hc =>
  lt_of_le_of_ne (h c hc).1.range.1 (h c hc).2.symm

theorem mem_normalise (h : c ∈ normalise cs) : ∃ d ∈ cs, c = asRead d := by
  induction hlength : cs.length using Nat.strong_induction_on generalizing cs with
  | _ n ih =>
    cases cs with
    | nil =>
      rw [normalise] at h
      cases h
    | cons d cs =>
      rw [List.length_cons] at hlength
      have htail := List.length_tail (l := cs)
      rw [normalise] at h
      rcases List.mem_cons.mp h with rfl | h
      · exact ⟨d, List.mem_cons_self, rfl⟩
      · split_ifs at h
        · obtain ⟨x, hx, rfl⟩ := ih _ (by omega) h rfl
          exact ⟨x, List.mem_cons_of_mem d (List.mem_of_mem_tail hx), rfl⟩
        · obtain ⟨x, hx, rfl⟩ := ih _ (by omega) h rfl
          exact ⟨x, List.mem_cons_of_mem d hx, rfl⟩

theorem normalise_range (h : Plain cs) : ∀ c ∈ normalise cs, 0 < c ∧ c ≤ 0x10FFFF := by
  intro c hc
  obtain ⟨d, hd, rfl⟩ := mem_normalise hc
  rw [asRead]
  split_ifs
  · decide
  · exact ⟨h.pos d hd, (h d hd).1.range.2⟩

theorem Ahead.start (h : Plain cs) : Ahead (.start (spell cs)) 0 (normalise cs) := by
  refine ⟨?_, ?_, fun c hc => (normalise_range h c hc).1, rfl, le_refl _⟩
  · change (characters (spell cs)).map Prod.fst = normalise cs
    rw [characters_spell h, List.map_map]
    exact List.map_id _
  · change ∀ p ∈ characters (spell cs), p.2 = []
    rw [characters_spell h]
    intro p hp
    obtain ⟨c, -, rfl⟩ := List.mem_map.mp hp
    rfl

/-- Errors are kept by the turns that follow. -/
theorem nextTokenLoop_errors (fuel : ℕ) (hfine : Fine (fun _ => True) s.codes)
    (hroom : s.fUngetc.length ≤ 3) :
    Ensures (nextTokenLoop fuel) s (fun _ => True) fun _ t =>
      s.errors.length ≤ t.errors.length := by
  induction fuel generalizing s with
  | zero => exact Ensures.throw trivial
  | succ fuel ih =>
    rw [nextTokenLoop]
    refine Ensures.bind ((turn_ensures hfine (fun _ => trivial) hroom).mono fun x t hread => ?_)
    have hnext : Fine (fun _ => True) t.codes ∧ t.fUngetc.length ≤ 3 ∧
        s.errors.length ≤ t.errors.length := by
      rcases hread with hended | hread
      · refine ⟨?_, hended.room, hended.errors⟩
        rw [hended.rest]
        intro c hc
        cases hc
      · obtain ⟨v, r, -, -, hlast⟩ := id hread
        exact ⟨hread.fine hfine, hlast.room, hlast.errors⟩
    cases x with
    | some tok => exact Ensures.pure hnext.2.2
    | none => exact (ih hnext.1 hnext.2.1).mono fun _ u hmore => hnext.2.2.trans hmore

/-- A text is read as one token of the type `type` with the string `str`, without an error. -/
def ReadsBack (bytes : Bytes) (type : NodeType) (str : Bytes) : Prop :=
  ∃ tok t, nextToken (.start bytes) = .ok (tok, t) ∧
    tok.fType = type ∧ tok.fString = str ∧ t.errors = []

/-- A token is the one that is meant where `good` holds, and only there. -/
def Outcome (type : NodeType) (str : Bytes) (good : Prop) (tok : Token) (t : Lexer) : Prop :=
  tok.fType = type ∧ tok.fString = str ∧ t.errors = [] ↔ good

def TurnOutcome (type : NodeType) (str : Bytes) (good : Prop) (x : Option Token) (t : Lexer) :
    Prop :=
  (∃ tok, x = some tok ∧ Outcome type str good tok t) ∨ x = none ∧ t.errors ≠ [] ∧ ¬ good

theorem readsBack_iff {type : NodeType} {str : Bytes} {good : Prop} (h : Plain cs)
    (hturn : Ensures turn (.start (spell cs)) (fun _ => ¬ good) (TurnOutcome type str good)) :
    ReadsBack (spell cs) type str ↔ good := by
  have hstart := Ahead.start h
  have hfine : Fine (fun _ => True) (Lexer.start (spell cs)).codes :=
    hstart.fine fun c hc => (normalise_range h c hc).2
  have hall := turn_ensures hfine (fun _ => trivial) (Nat.zero_le _)
  rw [ReadsBack, nextToken_eq, Lexer.turns]
  cases hrun : turn (.start (spell cs)) with
  | error e =>
    rw [nextTokenLoop_error hrun]
    constructor
    · rintro ⟨tok, t, hok, -⟩
      cases hok
    · exact fun hgood => absurd hgood (hturn.of_error hrun)
  | ok p =>
    obtain ⟨x, u⟩ := p
    rcases hturn.of_ok hrun with ⟨tok, rfl, houtcome⟩ | ⟨rfl, herrors, hbad⟩
    · rw [Outcome] at houtcome
      rw [nextTokenLoop_some hrun, ← houtcome]
      constructor
      · rintro ⟨tok', t, hok, hsame⟩
        obtain ⟨rfl, rfl⟩ := Prod.mk.inj (Except.ok.inj hok)
        exact hsame
      · exact fun hsame => ⟨tok, u, rfl, hsame⟩
    · rw [nextTokenLoop_none hrun]
      refine iff_of_false ?_ hbad
      rintro ⟨tok, t, hok, -, -, hnone⟩
      have hnext : Fine (fun _ => True) u.codes ∧ u.fUngetc.length ≤ 3 := by
        rcases hall.of_ok hrun with hended | hread
        · cases hended.token
        · obtain ⟨v, r, -, -, hlast⟩ := id hread
          exact ⟨hread.fine hfine, hlast.room⟩
      have hkept := (nextTokenLoop_errors _ hnext.1 hnext.2).of_ok hok
      rw [hnone, List.length_nil, Nat.le_zero, List.length_eq_zero_iff] at hkept
      exact herrors hkept

end SnapCpp.Css
