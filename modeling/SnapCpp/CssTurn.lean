import SnapCpp.CssReadingComments

/-!
A turn of the lexer: one token, or a comment that is dropped. What it reads is the text of it, but
for three kinds of texts behind which a character is lost.
-/
namespace SnapCpp.Css

open Computability

variable {throws : Throw → Prop} {s t : Lexer} {l v w : List ℤ} {e : ℕ} {x : Option Token}

def LosesPercent (l : List ℤ) : Prop :=
  ∃ c r, l = ('%' : ℤ) :: c :: r ∧ isStartIdentifier c = false

/-- The unit of a number is taken for a dash, and a dash is put back. -/
def LosesUnit (l : List ℤ) : Prop := ∃ n u r, l = n ++ u ++ r ∧ n ∈ numeral ∧ LostUnit u r

def LosesDash (l : List ℤ) : Prop := ∃ p v r, l = p ++ v ++ r ∧ p ∈ rangePrefix ∧ LostDash v r

/-- Some of the characters `l` are lost when a token is read of them. -/
def Loses (l : List ℤ) : Prop := LosesPercent l ∨ LosesUnit l ∨ LosesDash l

/-- A minus sign and the character U+FFFD, which is dropped, with no name behind them. -/
def DashLost (l : List ℤ) : Prop :=
  ∃ r, l = ('-' : ℤ) :: replacement :: r ∧
    ∀ c r', r = c :: r' → c ≠ '\\' ∧ isStartIdentifier c = false

/-- What a turn reads of the characters `l`. -/
def TurnReads (l : List ℤ) (e : ℕ) (t : Lexer) (x : Option Token) : Prop :=
  ∃ v r, v ≠ [] ∧ (t.codes = r ∨ t.codes = ('-' : ℤ) :: r ∧ 2 ≤ v.length) ∧
    Reads l e 3 t v r (replacement ∉ l → t.codes = r ∧ v ∈ turnText x ∨ Loses l)

theorem TurnReads.of_text (h : Reads l e 3 t v t.codes (replacement ∉ l → v ∈ turnText x))
    (hne : v ≠ []) : TurnReads l e t x :=
  ⟨v, t.codes, hne, Or.inl rfl, h.mono (le_refl 3) fun hgood hnone => Or.inl ⟨rfl, hgood hnone⟩⟩

theorem TurnReads.text (h : Reads l e 3 t v t.codes (v ∈ turnText x)) (hne : v ≠ []) :
    TurnReads l e t x :=
  .of_text (h.mono (le_refl 3) fun hgood _ => hgood) hne

theorem TurnReads.earlier {e' : ℕ} (h : TurnReads l e' t x) (he : e ≤ e') :
    TurnReads l e t x := by
  obtain ⟨v, r, hne, hcodes, hread⟩ := h
  have herrors := hread.errors
  exact ⟨v, r, hne, hcodes, hread.drops, by omega, fun heq => hread.good (by omega), hread.room⟩

theorem TurnReads.length_lt (h : TurnReads l e t x) : t.codes.length < l.length := by
  obtain ⟨v, r, hne, hcodes, hread⟩ := h
  have hshort := hread.drops.length_le
  have hpos := List.length_pos_iff.mpr hne
  rw [List.length_append] at hshort
  rcases hcodes with hcodes | ⟨hcodes, htwo⟩
  · rw [hcodes]
    omega
  · rw [hcodes, List.length_cons]
    omega

theorem TurnReads.fine (h : TurnReads l e t x) (hfine : Fine throws l) : Fine throws t.codes := by
  obtain ⟨v, r, hne, hcodes, hread⟩ := h
  have hrest := hfine.right hread.drops
  rcases hcodes with hcodes | ⟨hcodes, -⟩
  · rw [hcodes]
    exact hrest
  · rw [hcodes]
    intro c hc
    rcases List.mem_cons.mp hc with rfl | hc
    · exact ⟨by decide, fun h => absurd h (by decide)⟩
    · exact hrest c hc

theorem TurnReads.notMem (h : TurnReads l e t x) (hnone : replacement ∉ l) :
    replacement ∉ t.codes := by
  obtain ⟨v, r, hne, hcodes, hread⟩ := h
  have hrest : replacement ∉ r := fun hmem => hnone (hread.drops.mem (List.mem_append_right v hmem))
  rcases hcodes with hcodes | ⟨hcodes, -⟩
  · rwa [hcodes]
  · rw [hcodes]
    intro hmem
    rcases List.mem_cons.mp hmem with heq | hmem
    · exact absurd heq (by decide)
    · exact hrest hmem

theorem TurnReads.exact (h : TurnReads l e t x) (hnone : replacement ∉ l)
    (herrors : t.errors.length = e) (hloses : ¬ Loses l) :
    ∃ v ∈ turnText x, l = v ++ t.codes := by
  obtain ⟨v, r, hne, hcodes, hread⟩ := h
  rcases hread.good herrors hnone with ⟨hr, hv⟩ | hlost
  · refine ⟨v, hv, ?_⟩
    rw [hr]
    exact (hread.drops.eq hnone).symm
  · exact absurd hlost hloses

section Singles

variable {n : ℤ} {type : NodeType}

/-- A character that is looked at is put back, and the token is the text before it. -/
theorem putBack_ensures (hdrops : Drops l (w ++ (take n ++ s.codes)))
    (hfine : Fine throws l) (he : e ≤ s.errors.length) (hroom : s.fUngetc.length ≤ 2)
    (hw : w ∈ lexeme type) (hne : w ≠ []) :
    Ensures (do ungetc n; node type) s throws fun x t => TurnReads l e t x := by
  have hfinen := (hfine.right hdrops).left (Drops.refl _)
  refine Ensures.bind (ungetc_ensures hfinen.hand (by rw [ungetSize]; omega)
    fun t hcodes herrors hunget => Ensures.pure
      (TurnReads.text ⟨?_, by omega, fun _ => hw, by omega⟩ hne))
  rw [hcodes]
  exact hdrops.trans (Drops.append_left w (drops_hand n _))

/-- The token is the text that was read. -/
theorem node_ensures (hdrops : Drops l (w ++ s.codes))
    (he : e ≤ s.errors.length) (hroom : s.fUngetc.length ≤ 3) (hw : w ∈ lexeme type)
    (hne : w ≠ []) : Ensures (node type) s throws fun x t => TurnReads l e t x :=
  Ensures.pure (TurnReads.text ⟨hdrops, he, fun _ => hw, hroom⟩ hne)

/-- A character that starts no token is reported. -/
theorem invalidCharacter_ensures {c : ℤ} (hdrops : Drops l (w ++ s.codes))
    (he : e ≤ s.errors.length) (hroom : s.fUngetc.length ≤ 3) (hne : w ≠ []) :
    Ensures (invalidCharacter c) s throws fun x t => TurnReads l e t x := by
  rw [invalidCharacter]
  refine Ensures.bind (report_ensures fun t hcodes herrors hunget =>
    Ensures.pure (TurnReads.text (v := w) ⟨?_, by omega, fun heq => by omega, by omega⟩ hne))
  rw [hcodes]
  exact hdrops

/-- The state after the first character of a token. -/
structure Ready (throws : Throw → Prop) (c : ℤ) (s : Lexer) : Prop where
  ne : c ≠ eof
  fine : Fine throws ([c] ++ s.codes)
  room : s.fUngetc.length ≤ 2

variable {c : ℤ} {fuel : ℕ}

theorem Ready.rest (h : Ready throws c s) : Fine throws s.codes := h.fine.right (Drops.refl _)

theorem Got.after (h : Got s throws c t) (w : List ℤ) :
    Drops (w ++ s.codes) (w ++ (take c ++ t.codes)) := by
  rw [← h.codes]
  exact Drops.refl _

theorem Got.joined (h : Got s throws c t) (hc : c ≠ eof) (w : List ℤ) :
    Drops (w ++ s.codes) (w ++ [c] ++ t.codes) := by
  rw [List.append_assoc, ← take_of_ne hc]
  exact h.after w

/-- The token is the character `c` alone, and the next one is put back. -/
theorem Ready.single (h : Ready throws c s) (hgot : Got s throws n t)
    (htype : [c] ∈ lexeme type) : Ensures (do ungetc n; node type) t throws fun x u =>
      TurnReads ([c] ++ s.codes) s.errors.length u x :=
  putBack_ensures (hgot.after [c]) h.fine hgot.errors (hgot.room.trans (by have := h.room; omega))
    htype (by simp)

/-- The token is made of both characters. -/
theorem Ready.pair {second : ℤ} (h : Ready throws c s)
    (hgot : Got s throws n t) (hn : n = second) (hsecond : second ≠ eof)
    (htype : [c, second] ∈ lexeme type) : Ensures (node type) t throws fun x u =>
      TurnReads ([c] ++ s.codes) s.errors.length u x := by
  subst hn
  exact node_ensures (hgot.joined hsecond [c]) hgot.errors
    (hgot.room.trans (by have := h.room; omega)) htype (by simp)

theorem pairToken_ensures {second : ℤ} {joined single : NodeType} (h : Ready throws c s)
    (hsecond : second ≠ eof) (hjoined : [c, second] ∈ lexeme joined)
    (hsingle : [c] ∈ lexeme single) :
    Ensures (pairToken second joined single) s throws fun x t =>
      TurnReads ([c] ++ s.codes) s.errors.length t x := by
  rw [pairToken]
  refine read_then h.rest fun n t hgot _ _ => ?_
  exact Ensures.ite (fun hn => h.pair hgot hn hsecond hjoined) (fun _ => h.single hgot hsingle)

theorem equalToken_ensures (h : Ready throws '=' s) :
    Ensures equalToken s throws fun x t =>
      TurnReads ([('=' : ℤ)] ++ s.codes) s.errors.length t x := by
  have hroom := h.room
  rw [equalToken]
  refine read_then h.rest fun n t hgot hunget herrors => ?_
  refine Ensures.ite (fun hn => ?_) (fun _ => h.single hgot (Or.inl rfl))
  refine Ensures.bind (warn_ensures fun u hcodes herrors' hunget' => ?_)
  subst hn
  refine node_ensures (w := [('=' : ℤ)] ++ [('=' : ℤ)]) ?_ (by omega) (by omega)
    (Or.inr rfl) (by simp)
  rw [hcodes]
  exact hgot.joined (by decide) _

theorem starToken_ensures (h : Ready throws '*' s) :
    Ensures starToken s throws fun x t =>
      TurnReads ([('*' : ℤ)] ++ s.codes) s.errors.length t x := by
  rw [starToken]
  refine read_then h.rest fun n t hgot _ _ => ?_
  refine Ensures.ite (fun hn => h.pair hgot hn (by decide) rfl) (fun _ => ?_)
  exact Ensures.ite (fun hn => h.pair hgot hn (by decide) rfl) (fun _ => h.single hgot rfl)

theorem pipeToken_ensures (h : Ready throws '|' s) :
    Ensures pipeToken s throws fun x t =>
      TurnReads ([('|' : ℤ)] ++ s.codes) s.errors.length t x := by
  rw [pipeToken]
  refine read_then h.rest fun n t hgot _ _ => ?_
  refine Ensures.ite (fun hn => h.pair hgot hn (by decide) rfl) (fun _ => ?_)
  exact Ensures.ite (fun hn => h.pair hgot hn (by decide) rfl) (fun _ => h.single hgot rfl)

theorem caretToken_ensures (h : Ready throws '^' s) :
    Ensures caretToken s throws fun x t =>
      TurnReads ([('^' : ℤ)] ++ s.codes) s.errors.length t x := by
  have hroom := h.room
  rw [caretToken]
  refine read_then h.rest fun n t hgot hunget _ => ?_
  refine Ensures.ite (fun hn => h.pair hgot hn (by decide) rfl) (fun _ => ?_)
  refine Ensures.bind (hgot.putBack h.rest (by omega) fun u _ hback herrors hunget' => ?_)
  exact invalidCharacter_ensures (w := [('^' : ℤ)]) (Drops.append_left _ hback) herrors (by omega)
    (by simp)

theorem dollarToken_ensures (h : Ready throws '$' s) (hfuel : s.codes.length < fuel) :
    Ensures (dollarToken fuel) s throws fun x t =>
      TurnReads ([('$' : ℤ)] ++ s.codes) s.errors.length t x := by
  have hroom := h.room
  rw [dollarToken]
  refine read_then h.rest fun n t hgot hunget _ => ?_
  refine Ensures.ite (fun hn => h.pair hgot hn (by decide) rfl)
    (fun _ => Ensures.ite (fun hn => ?_) (fun _ => h.single hgot rfl))
  have hshort := hgot.drops.length_le
  rw [List.length_append] at hshort
  rw [tokenOf]
  refine Ensures.bind ((variableToken_ensures fuel n hn (by omega)
    (by rw [← hgot.codes]; exact h.rest) (by omega)).mono fun tok u ⟨v, hread⟩ =>
      Ensures.pure (TurnReads.text (v := [('$' : ℤ)] ++ v) ?_ (by simp)))
  exact hread.after (hgot.after _) hgot.errors fun _ hgood => hgood

end Singles

section Longer

variable {c : ℤ} {fuel : ℕ}

theorem lessToken_ensures (h : Ready throws '<' s) :
    Ensures lessToken s throws fun x t =>
      TurnReads ([('<' : ℤ)] ++ s.codes) s.errors.length t x := by
  have hroom := h.room
  rw [lessToken]
  refine read_then h.rest fun n t hgot hunget herrors => ?_
  -- The comparison is read where all the characters behind it are put back.
  have hless : ∀ u : Lexer, Drops s.codes u.codes → s.errors.length ≤ u.errors.length →
      u.fUngetc.length ≤ 3 → Ensures (node .lessThan) u throws fun x y =>
        TurnReads ([('<' : ℤ)] ++ s.codes) s.errors.length y x := fun u hback he hunget =>
    node_ensures (w := [('<' : ℤ)]) (Drops.append_left _ hback) he hunget rfl (by simp)
  refine Ensures.ite (fun hn => ?_)
    (fun _ => Ensures.ite (fun hn => h.pair hgot hn (by decide) rfl) (fun _ => h.single hgot rfl))
  refine read_then hgot.fine fun p u hgot' hunget' herrors' => ?_
  refine Ensures.ite (fun hp => ?_) (fun _ => ?_)
  · refine read_then hgot'.fine fun b y hgot'' hunget'' herrors'' => ?_
    refine Ensures.ite (fun hb => ?_) (fun _ => ?_)
    · subst hn hp hb
      refine node_ensures (w := [('<' : ℤ)] ++ [('!' : ℤ)] ++ [('-' : ℤ)] ++ [('-' : ℤ)]) ?_
        (by omega) (by omega) rfl (by simp)
      refine (hgot.joined (by decide) _).trans ?_
      refine (hgot'.joined (by decide) _).trans ?_
      exact hgot''.joined (by decide) _
    · refine hgot'.putBackBoth hgot'' hgot.fine (by omega) fun z hz hback he hunget₃ => ?_
      refine Ensures.bind (ungetc_ensures (h.rest.left hgot.drops_hand) (by rw [ungetSize]; omega)
        fun z' hback' herrors₅ hunget₅ => hless z' ?_ (by omega) (by omega))
      rw [hback']
      exact hgot.drops_hand.trans (Drops.append_left _ hback)
  · exact hgot.putBackBoth hgot' h.rest (by omega) fun z hz hback he hunget₃ =>
      hless z hback he (by omega)

theorem turnReads_number {tok : Token} {percent : Bool} (htype : NumberNode tok percent)
    (h : NumberReads l e t percent 1 (· ∈ numeral)) : TurnReads l e t (some tok) := by
  obtain ⟨n, u, hlength, hread | ⟨r, hread, hcodes, hne⟩⟩ := h
  · refine TurnReads.text (hread.mono (le_refl 3) fun ⟨hn, hu⟩ => ?_) ?_
    · rcases htype with ⟨htype, rfl⟩ | ⟨htype | htype, rfl⟩
      · change _ ∈ lexeme tok.fType
        rw [htype]
        exact Language.append_mem_mul hn hu
      · change _ ∈ lexeme tok.fType
        rw [htype]
        exact Language.append_mem_mul hn hu
      · change _ ∈ lexeme tok.fType
        rw [htype]
        exact Language.append_mem_mul hn hu
    · intro hnil
      rw [(List.append_eq_nil_iff.mp hnil).1] at hlength
      cases hlength
  · have hpos := List.length_pos_iff.mpr hne
    have htwo : 2 ≤ (n ++ u).length := by
      rw [List.length_append]
      omega
    refine ⟨n ++ u, r, fun hnil => ?_, Or.inr ⟨hcodes, htwo⟩,
      hread.mono (le_refl 3) fun ⟨hn, hlost⟩ hnone => ?_⟩
    · exact hne (List.append_eq_nil_iff.mp hnil).2
    · refine Or.inr (Or.inr (Or.inl ⟨n, u, r, ?_, hn, hlost⟩))
      exact (hread.drops.eq hnone).symm

theorem numberToken_ensures (hfuel : ([c] ++ s.codes).length < fuel)
    (h : Ready throws c s)
    (hc : isDigit c = true ∨ c = '.' ∨ (c = '-' ∨ c = '+') ∧ NumberAhead s.codes) :
    Ensures (tokenOf (number fuel c)) s throws fun x t =>
      TurnReads ([c] ++ s.codes) s.errors.length t x := by
  rw [tokenOf]
  have htake := take_of_ne h.ne
  refine Ensures.bind ((number_ensures fuel c (by rw [htake]; exact hfuel)
    (by rw [htake]; exact h.fine) h.room hc).mono fun tok t ⟨percent, htype, hread⟩ => ?_)
  rw [htake] at hread
  exact Ensures.pure (turnReads_number htype hread)

theorem Ready.of_drops (h : Ready throws c s) (hdrops : Drops s.codes t.codes)
    (hroom : t.fUngetc.length ≤ 2) : Ready throws c t :=
  ⟨h.ne, fun d hd => h.fine d ((Drops.append_left [c] hdrops).mem hd), hroom⟩

theorem TurnReads.of_drops {m : List ℤ} (h : TurnReads m e t x) (hdrops : Drops l m) :
    TurnReads l e t x := by
  obtain ⟨v, r, hne, hcodes, hread⟩ := h
  refine ⟨v, r, hne, hcodes, hdrops.trans hread.drops, hread.errors, fun heq hnone => ?_,
    hread.room⟩
  rw [← hdrops.eq hnone]
  exact hread.good heq fun hmem => hnone (hdrops.mem hmem)

/-- What was looked at is put back, but for characters that are dropped, and a token is read. -/
theorem Ready.resumed {u : Lexer} {m : Lex (Option Token)} (h : Ready throws c s)
    (hback : Drops s.codes u.codes) (he : s.errors.length ≤ u.errors.length)
    (hroom : u.fUngetc.length ≤ 2)
    (hm : Ready throws c u → u.codes.length ≤ s.codes.length →
      Ensures m u throws fun x t => TurnReads ([c] ++ u.codes) u.errors.length t x) :
    Ensures m u throws fun x t => TurnReads ([c] ++ s.codes) s.errors.length t x :=
  (hm (h.of_drops hback hroom) hback.length_le).mono fun _ _ hreads =>
    (hreads.of_drops (Drops.append_left _ hback)).earlier he

theorem Got.codes_of_ne {n : ℤ} (hgot : Got s throws n t) (hn : n ≠ eof) :
    s.codes = n :: t.codes := by
  rw [hgot.codes, take_of_ne hn]
  rfl

theorem periodToken_ensures (h : Ready throws '.' s)
    (hfuel : ([('.' : ℤ)] ++ s.codes).length < fuel) :
    Ensures (periodToken fuel) s throws fun x t =>
      TurnReads ([('.' : ℤ)] ++ s.codes) s.errors.length t x := by
  have hroom := h.room
  rw [periodToken]
  refine read_then h.rest fun n t hgot hunget _ => ?_
  refine Ensures.bind (hgot.putBack h.rest (by omega) fun u hcodes hback herrors hunget' => ?_)
  refine Ensures.ite (fun hn => ?_) (fun _ => ?_)
  · refine h.resumed hback herrors (by omega) fun hready hshort =>
      numberToken_ensures ?_ hready (Or.inr (Or.inl rfl))
    rw [List.length_append] at hfuel ⊢
    omega
  · exact node_ensures (w := [('.' : ℤ)]) (Drops.append_left _ hback) herrors
      (by omega) rfl (by simp)

theorem nameToken_ensures (h : Ready throws c s) (hfuel : s.codes.length < fuel)
    (hstarts : Starts throws s c) :
    Ensures (identifier fuel c) s throws fun tok t =>
      ∃ v, Reads ([c] ++ s.codes) s.errors.length 3 t v t.codes (v ∈ lexeme tok.fType) ∧
        v ≠ [] := by
  have htake := take_of_ne h.ne
  have hroom := h.room
  have hname := identifier_ensures fuel c hfuel (by rw [htake]; exact h.fine) (by omega)
    (fun _ _ => hroom) hstarts
  rwa [htake] at hname

theorem tokenOf_ensures {m : Lex Token} (h : Ensures m s throws fun tok t =>
    ∃ v, Reads l e 3 t v t.codes (v ∈ lexeme tok.fType) ∧ v ≠ []) :
    Ensures (tokenOf m) s throws fun x t => TurnReads l e t x := by
  rw [tokenOf]
  exact Ensures.bind (h.mono fun tok t ⟨v, hread, hne⟩ =>
    Ensures.pure (TurnReads.text hread hne))

theorem markedIdentifier_ensures (h : Ready throws c s) (hfuel : s.codes.length < fuel)
    (hstarts : Starts throws s c) :
    Ensures (markedIdentifier fuel c) s throws fun x t =>
      TurnReads ([c] ++ s.codes) s.errors.length t x := by
  rw [markedIdentifier]
  refine Ensures.bind ((nameToken_ensures h hfuel hstarts).mono fun tok t ⟨v, hread, hne⟩ => ?_)
  refine Ensures.ite (fun htype => Ensures.pure (TurnReads.text (hread.mono (le_refl 3) ?_) hne))
    (fun _ => Ensures.pure (TurnReads.text hread hne))
  intro hv
  rw [htype] at hv
  exact absurd hv hne

theorem percentToken_ensures (h : Ready throws '%' s) (hfuel : s.codes.length < fuel) :
    Ensures (percentToken fuel) s throws fun x t =>
      TurnReads ([('%' : ℤ)] ++ s.codes) s.errors.length t x := by
  have hroom := h.room
  rw [percentToken]
  refine read_then h.rest fun n t hgot hunget herrors => ?_
  refine Ensures.ite (fun hn => ?_) (fun hn => Ensures.pure ?_)
  · have hne : n ≠ replacement := by
      rintro rfl
      exact absurd hn (by decide)
    refine Ensures.bind (hgot.putBack h.rest (by omega) fun u hcodes hback herrors' hunget' => ?_)
    rw [hand_of_ne (isStartIdentifier_ne_eof hn) hne] at hcodes
    exact h.resumed hback herrors' (by omega) fun hready hshort =>
      markedIdentifier_ensures hready (by omega)
        ⟨Or.inl rfl, fun _ => ⟨n, t.codes, hcodes, hn⟩, fun hdash => absurd hdash (by decide)⟩
  · by_cases heof : n = eof
    · refine TurnReads.text (v := [('%' : ℤ)]) ⟨?_, herrors, fun _ => rfl, by omega⟩ (by simp)
      have hafter := hgot.after [('%' : ℤ)]
      rwa [heof, take_eof] at hafter
    · refine ⟨[('%' : ℤ)] ++ [n], t.codes, by simp, Or.inl rfl,
        ⟨hgot.joined heof _, herrors, fun _ _ => Or.inr
          (Or.inl ⟨n, t.codes, ?_, by simpa using hn⟩),
          by omega⟩⟩
      rw [hgot.codes_of_ne heof]
      rfl

theorem stringToken_ensures (h : Ready throws c s) (hfuel : s.codes.length < fuel)
    (hc : c = '"' ∨ c = '\'') :
    Ensures (stringToken fuel c) s throws fun x t =>
      TurnReads ([c] ++ s.codes) s.errors.length t x := by
  have hroom := h.room
  rw [stringToken, string]
  refine Ensures.bind ((stringLoop_ensures c fuel [] hfuel h.rest (by omega)).mono
    fun str t hloop => ?_)
  obtain ⟨v, hread⟩ := hloop
  refine Ensures.pure (TurnReads.text (v := [c] ++ v) ?_ (by simp))
  refine hread.after (Drops.refl _) (le_refl _) fun _ hgood => ?_
  rcases hc with rfl | rfl
  · exact Or.inl (Language.append_mem_mul rfl hgood)
  · exact Or.inr (Language.append_mem_mul rfl hgood)

theorem slashToken_ensures (h : Ready throws '/' s) (hfuel : s.codes.length < fuel) :
    Ensures (slashToken fuel) s throws fun x t =>
      TurnReads ([('/' : ℤ)] ++ s.codes) s.errors.length t x := by
  have hroom := h.room
  rw [slashToken]
  refine read_then h.rest fun n t hgot hunget herrors => ?_
  have hshort := hgot.drops.length_le
  rw [List.length_append] at hshort
  -- What is read of a comment is the rest of its text.
  have hcomment : ∀ {cComment : Bool} {u : Lexer} {v : List ℤ} {x : Option Token}, n ≠ eof →
      [('/' : ℤ)] ++ [n] = commentStart cComment →
      Reads t.codes t.errors.length 3 u v u.codes
        (replacement ∉ t.codes → commentStart cComment ++ v ∈ turnText x) →
      TurnReads ([('/' : ℤ)] ++ s.codes) s.errors.length u x := by
    intro cComment u v x hn hstart hread
    have hdrops := hgot.joined hn [('/' : ℤ)]
    refine TurnReads.of_text (hread.after hdrops herrors fun _ hgood hnone => ?_) (by simp)
    rw [hstart]
    exact hgood fun hmem => hnone (hdrops.mem (List.mem_append_right _ hmem))
  refine Ensures.ite (fun hn => ?_) (fun _ => Ensures.ite (fun hn => ?_) (fun _ => ?_))
  · refine (comment_ensures fuel true (by omega) hgot.fine (by omega)).mono
      fun x u ⟨v, hread⟩ => hcomment (by rw [hn]; decide) ?_ hread
    rw [hn]
    rfl
  · have hstart : [('/' : ℤ)] ++ [n] = commentStart false := by
      rw [hn]
      rfl
    have hneof : n ≠ eof := by
      rw [hn]
      decide
    refine Ensures.bind ((comment_ensures fuel false (by omega) hgot.fine (by omega)).mono
      fun x u ⟨v, hread⟩ => ?_)
    have hreads := hcomment hneof hstart hread
    refine Ensures.ite (fun hx => Ensures.pure ?_) (fun _ => ?_)
    · rwa [← hx]
    · refine Ensures.bind (warn_ensures fun y hcodes herrors' hunget' => Ensures.pure ?_)
      obtain ⟨w, r, hne, hr, hlast⟩ := hreads
      have he := hlast.errors
      have hroom' := hlast.room
      refine ⟨w, r, hne, by rwa [hcodes], hlast.drops, by omega, fun heq hnone => ?_, by omega⟩
      rw [hcodes]
      exact hlast.good (by omega) hnone
  · exact putBack_ensures (hgot.after _) h.fine herrors (by omega) rfl (by simp)

theorem many_isSpace_le : ∀ w ∈ (oneOf isSpace)∗, w ∈ (oneOf fun c => isSpace c || c = 12)∗ := by
  refine kstar_mono (a := oneOf isSpace) ?_
  rintro w ⟨c, hc, rfl⟩
  exact mem_oneOf (by rw [hc]; rfl)

theorem spaces_ensures (h : Ready throws c s) (hfuel : s.codes.length < fuel)
    (hc : isSpace c = true ∨ c = 12) :
    Ensures (do whitespaceLoop fuel; node .whitespace) s throws fun x t =>
      TurnReads ([c] ++ s.codes) s.errors.length t x := by
  have hroom := h.room
  rw [whitespaceLoop_eq]
  refine Ensures.bind ((skipCommentSpaces_ensures (by decide) fuel hfuel h.rest (by omega)).mono
    fun _ t ⟨v, hread⟩ => Ensures.pure (TurnReads.text (v := [c] ++ v) ?_ (by simp)))
  refine hread.after (Drops.refl _) (le_refl _) fun _ hgood => ?_
  refine mem_many (mem_oneOf ?_) (many_isSpace_le v hgood)
  simpa using hc

end Longer

section Signs

variable {c : ℤ} {fuel : ℕ}

/-- The name behind a minus sign that announces one. -/
theorem dashName_ensures (h : Ready throws '-' s) (hfuel : s.codes.length < fuel)
    (hdash : DashLost ([('-' : ℤ)] ++ s.codes) → throws .identifierStart)
    {n : ℤ} (hgot : Got s throws n t) (hn : isIdentifier n = true ∨ n = '\\')
    (hdigit : n < '0' ∨ '9' < n) (hminus : n ≠ '-') :
    Ensures (do ungetc n; tokenOf (identifier fuel '-')) t throws fun x u =>
      TurnReads ([('-' : ℤ)] ++ s.codes) s.errors.length u x := by
  have hroom := h.room
  have hunget := hgot.room
  have hneof : n ≠ eof := by
    rcases hn with hn | rfl
    · exact isIdentifier_ne_eof hn
    · decide
  refine Ensures.bind (hgot.putBack h.rest (by omega) fun u hcodes hback herrors hunget' => ?_)
  have hstarts : Starts throws u '-' := by
    refine ⟨Or.inr (Or.inr (Or.inl rfl)), fun hpercent => absurd hpercent (by decide), fun _ => ?_⟩
    by_cases hreplacement : n = replacement
    · rw [hreplacement, hand_replacement, List.nil_append] at hcodes
      by_cases hstart : ∃ d r, t.codes = d :: r ∧ (d = '\\' ∨ isStartIdentifier d = true)
      · rw [hcodes]
        exact Or.inr hstart
      · refine Or.inl (hdash ⟨t.codes, ?_, fun d r hcons => ?_⟩)
        · rw [hgot.codes_of_ne hneof, hreplacement]
          rfl
        · by_contra hor
          refine hstart ⟨d, r, hcons, ?_⟩
          by_cases hd : d = '\\'
          · exact Or.inl hd
          · refine Or.inr ?_
            by_contra hstart'
            exact hor ⟨hd, by simpa using hstart'⟩
    · rw [hand_of_ne hneof hreplacement] at hcodes
      refine Or.inr ⟨n, t.codes, hcodes, ?_⟩
      rcases hn with hn | hn
      · right
        simp only [isIdentifier, isStartIdentifier, isDigit, Bool.or_eq_true, Bool.and_eq_true,
          decide_eq_true_eq, ne_eq] at hn ⊢
        rcases hn with (((hn | hn) | hn) | hn) | hn
        · omega
        · exact Or.inl (Or.inl hn)
        · exact absurd hn hminus
        · exact Or.inr hn
        · exact Or.inl (Or.inr ⟨hn, hreplacement⟩)
      · exact Or.inl hn
  exact h.resumed hback herrors (by omega) fun hready hshort =>
    tokenOf_ensures (nameToken_ensures hready (by omega) hstarts)

theorem signRest_ensures (h : Ready throws c s) (hfuel : s.codes.length < fuel)
    (hc : c = '+' ∨ c = '-')
    (hdash : DashLost ([c] ++ s.codes) → throws .identifierStart)
    {n : ℤ} (hgot : Got s throws n t) :
    Ensures (signRest fuel c n) t throws fun x u =>
      TurnReads ([c] ++ s.codes) s.errors.length u x := by
  have hroom := h.room
  have hunget := hgot.room
  have herrors := hgot.errors
  rw [signRest]
  refine Ensures.ite (fun hplus => ?_) (fun hplus => ?_)
  · subst hplus
    exact h.single hgot rfl
  obtain rfl := hc.resolve_left hplus
  refine Ensures.ite (fun hn => ?_) (fun hn => ?_)
  · refine read_then hgot.fine fun p u hgot' hunget' herrors' => ?_
    refine Ensures.ite (fun hp => ?_) (fun _ => ?_)
    · subst hn hp
      refine node_ensures (w := [('-' : ℤ)] ++ [('-' : ℤ)] ++ [('>' : ℤ)]) ?_ (by omega)
        (by omega) rfl (by simp)
      exact (hgot.joined (by decide) _).trans (hgot'.joined (by decide) _)
    · exact hgot.putBackBoth hgot' h.rest (by omega) fun z hz hback he hunget'' =>
        node_ensures (w := [('-' : ℤ)]) (Drops.append_left _ hback) he (by omega) rfl (by simp)
  · by_cases hname : (isIdentifier n = true ∨ n = '\\') ∧ (n < '0' ∨ '9' < n)
    · simp only [if_pos hname]
      exact dashName_ensures h hfuel hdash hgot hname.1 hname.2 hn
    · simp only [if_neg hname]
      exact h.single hgot rfl

theorem signToken_ensures (h : Ready throws c s) (hfuel : ([c] ++ s.codes).length < fuel)
    (hc : c = '+' ∨ c = '-')
    (hdash : DashLost ([c] ++ s.codes) → throws .identifierStart) :
    Ensures (signToken fuel c) s throws fun x t =>
      TurnReads ([c] ++ s.codes) s.errors.length t x := by
  have hroom := h.room
  rw [signToken]
  refine read_then h.rest fun n t hgot hunget _ => ?_
  -- What was looked at is there again, and a number starts with it.
  have hnumber : ∀ {u : Lexer}, Drops s.codes u.codes → NumberAhead u.codes →
      s.errors.length ≤ u.errors.length → u.fUngetc.length ≤ 2 →
      Ensures (tokenOf (number fuel c)) u throws fun x y =>
        TurnReads ([c] ++ s.codes) s.errors.length y x := by
    intro u hback hahead herrors' hroom'
    refine h.resumed hback herrors' hroom' fun hready hshort =>
      numberToken_ensures ?_ hready (Or.inr (Or.inr ⟨hc.symm, hahead⟩))
    rw [List.length_append] at hfuel ⊢
    omega
  refine Ensures.ite (fun hdigit => ?_) (fun hdigit => ?_)
  · refine Ensures.bind (hgot.putBack h.rest (by omega) fun u hcodes hback herrors' hunget' => ?_)
    rw [hand_digit hdigit] at hcodes
    exact hnumber hback ⟨n, t.codes, hcodes, Or.inl hdigit⟩ herrors' (by omega)
  refine Ensures.ite (fun hperiod => ?_) (fun _ => ?_)
  · have hneof : n ≠ eof := by
      rw [hperiod]
      decide
    have hhand : hand n = [n] := hand_of_ne hneof (by rw [hperiod]; decide)
    refine read_then hgot.fine fun p u hgot' hunget' _ => ?_
    refine Ensures.ite (fun hp => ?_) (fun hp => ?_)
    · refine hgot.putBackBoth hgot' h.rest (by omega) fun z hz hback he hunget'' => ?_
      rw [hhand] at hz
      exact hnumber hback ⟨n, _, hz, Or.inr hperiod⟩ he (by omega)
    · refine Ensures.bind (hgot'.putBack hgot.fine (by omega)
        fun y _ hback herrors' hunget'' => ?_)
      have herrors := hgot.errors
      -- The period is put back as well, whatever the sign is.
      have hdrops : Drops s.codes ([n] ++ y.codes) :=
        (hgot.drops_of_ne hneof).trans (Drops.append_left [n] hback)
      have hperiodToken : ∀ type : NodeType, [c] ∈ lexeme type →
          Ensures (do ungetc n; node type) y throws fun x z =>
            TurnReads ([c] ++ s.codes) s.errors.length z x := by
        intro type htype
        refine putBack_ensures (w := [c]) ?_ h.fine (by omega) (by omega) htype (by simp)
        rw [take_of_ne hneof]
        exact Drops.append_left [c] hdrops
      rw [signRest]
      refine Ensures.ite (fun hplus => ?_) (fun hplus => ?_)
      · exact hperiodToken _ (by rw [hplus]; rfl)
      · rw [if_neg (by rw [hperiod]; decide)]
        have hname : ¬ ((isIdentifier n = true ∨ n = '\\') ∧ (n < '0' ∨ '9' < n)) := by
          rw [hperiod]
          decide
        simp only [if_neg hname]
        exact hperiodToken _ (by rw [hc.resolve_left hplus]; rfl)
  · rw [List.length_append, List.length_singleton] at hfuel
    exact signRest_ensures h (by omega) hc hdash hgot

end Signs

section Turns

variable {c : ℤ} {fuel : ℕ}

theorem isStartIdentifier_u (h : c = 'u' ∨ c = 'U') : isStartIdentifier c = true := by
  rcases h with rfl | rfl <;> decide

theorem plainName_ensures (h : Ready throws c s) (hfuel : s.codes.length < fuel)
    (hc : isStartIdentifier c = true) :
    Ensures (tokenOf (identifier fuel c)) s throws fun x t =>
      TurnReads ([c] ++ s.codes) s.errors.length t x := by
  refine tokenOf_ensures (nameToken_ensures h hfuel ⟨Or.inr (Or.inr (Or.inr (Or.inr hc))), ?_, ?_⟩)
  · rintro rfl
    exact absurd hc (by decide)
  · rintro rfl
    exact absurd hc (by decide)

theorem letterU_ensures (h : Ready throws c s) (hfuel : s.codes.length < fuel)
    (hc : c = 'u' ∨ c = 'U') :
    Ensures (letterU fuel c) s throws fun x t =>
      TurnReads ([c] ++ s.codes) s.errors.length t x := by
  have hroom := h.room
  rw [letterU]
  refine read_then h.rest fun n t hgot hunget herrors => ?_
  -- The letter is the first one of a name, when what was looked at is put back.
  have hname : ∀ u : Lexer, Drops s.codes u.codes → s.errors.length ≤ u.errors.length →
      u.fUngetc.length ≤ 2 → Ensures (tokenOf (identifier fuel c)) u throws fun x y =>
        TurnReads ([c] ++ s.codes) s.errors.length y x := fun u hback he hunget =>
    h.resumed hback he hunget fun hready hshort =>
      plainName_ensures hready (by omega) (isStartIdentifier_u hc)
  refine Ensures.ite (fun hplus => ?_) (fun _ => ?_)
  · have hneof : n ≠ eof := by
      rw [hplus]
      decide
    have hdrops := hgot.joined hneof [c]
    refine read_then hgot.fine fun d u hgot' hunget' herrors' => ?_
    refine Ensures.ite (fun hd => ?_) (fun _ => ?_)
    · have hprefix : [c] ++ [n] ∈ rangePrefix := by
        refine Language.append_mem_mul ?_ (by rw [hplus]; exact mem_literal '+')
        rcases hc with rfl | rfl
        · exact Or.inl rfl
        · exact Or.inr rfl
      rw [tokenOf]
      refine Ensures.bind ((unicodeRange_ensures d (by rw [← hgot'.codes]; exact hgot.fine)
        (by omega) hd).mono fun tok y ⟨htype, v, hread⟩ => Ensures.pure ?_)
      have hdrops' : Drops ([c] ++ s.codes) ([c] ++ [n] ++ (take d ++ u.codes)) := by
        rw [← hgot'.codes]
        exact hdrops
      have hall := hread.after (p := replacement ∉ [c] ++ s.codes →
          [c] ++ [n] ++ v ∈ rangeText ∨ LosesDash ([c] ++ s.codes)) hdrops'
        (herrors.trans herrors') fun _ hgood hnone => ?_
      · refine ⟨[c] ++ [n] ++ v, y.codes, by simp, Or.inl rfl,
          hall.mono (le_refl 3) fun hgood hnone => ?_⟩
        rcases hgood hnone with hv | hv
        · refine Or.inl ⟨rfl, ?_⟩
          change _ ∈ lexeme tok.fType
          rw [htype]
          exact hv
        · exact Or.inr (Or.inr (Or.inr hv))
      · rcases hgood fun hmem => hnone (hdrops'.mem (List.mem_append_right _ hmem)) with hv | hv
        · exact Or.inl (Language.append_mem_mul hprefix hv)
        · refine Or.inr ⟨[c] ++ [n], v, y.codes, ?_, hprefix, hv⟩
          have hall' := hdrops'.trans (Drops.append_left _ hread.drops)
          rw [← List.append_assoc] at hall'
          exact (hall'.eq hnone).symm
    · exact hgot.putBackBoth hgot' h.rest (by omega) fun z hz hback he hunget'' =>
        hname z hback he (by omega)
  · exact Ensures.bind (hgot.putBack h.rest (by omega) fun z _ hback herrors' hunget' =>
      hname z hback herrors' (by omega))

theorem singleToken_text {type : NodeType} (h : singleToken c = some type) : [c] ∈ lexeme type := by
  unfold singleToken at h
  split_ifs at h with h₁ h₂ h₃ h₄ h₅ h₆ h₇ h₈ h₉
  all_goals
    obtain rfl := Option.some.inj h
    subst c
    rfl

/-- The test for one first character. -/
theorem Ready.ite {d : ℤ} {m m' : Lex (Option Token)} (h : Ready throws c s)
    (hm : Ready throws d s → Ensures m s throws fun x t =>
      TurnReads ([d] ++ s.codes) s.errors.length t x)
    (hm' : Ensures m' s throws fun x t => TurnReads ([c] ++ s.codes) s.errors.length t x) :
    Ensures (if c = d then m else m') s throws fun x t =>
      TurnReads ([c] ++ s.codes) s.errors.length t x := by
  refine Ensures.ite (fun hc => ?_) fun _ => hm'
  subst hc
  exact hm h

theorem tokenAt_ensures (h : Ready throws c s) (hfuel : ([c] ++ s.codes).length < fuel)
    (hdash : DashLost ([c] ++ s.codes) → throws .identifierStart) :
    Ensures (tokenAt fuel c) s throws fun x t =>
      TurnReads ([c] ++ s.codes) s.errors.length t x := by
  have hroom := h.room
  have hfuel' : s.codes.length < fuel := by
    rw [List.length_append, List.length_singleton] at hfuel
    omega
  rw [tokenAt, if_neg h.ne]
  refine h.ite equalToken_ensures ?_
  refine h.ite (fun h => pairToken_ensures h (by decide) rfl rfl) ?_
  refine h.ite (fun h => pairToken_ensures h (by decide) rfl rfl) ?_
  refine h.ite (fun h => pairToken_ensures h (by decide) rfl rfl) ?_
  refine h.ite (fun h => periodToken_ensures h hfuel) ?_
  refine h.ite (fun h => pairToken_ensures h (by decide) rfl rfl) ?_
  refine h.ite lessToken_ensures ?_
  refine Ensures.ite (fun hc => signToken_ensures h hfuel hc hdash) fun _ => ?_
  refine h.ite caretToken_ensures ?_
  refine h.ite (fun h => dollarToken_ensures h hfuel') ?_
  refine h.ite (fun h => pairToken_ensures h (by decide) rfl rfl) ?_
  refine h.ite starToken_ensures ?_
  refine h.ite pipeToken_ensures ?_
  refine Ensures.ite (fun hc => stringToken_ensures h hfuel' hc) fun _ => ?_
  refine h.ite (fun h => slashToken_ensures h hfuel') ?_
  refine Ensures.ite (fun hc => spaces_ensures h hfuel' hc) fun _ => ?_
  refine Ensures.ite (fun hc => numberToken_ensures hfuel h (Or.inl hc)) fun _ => ?_
  refine Ensures.ite (fun hc => ?_) fun _ => ?_
  · subst hc
    refine (hash_ensures fuel hfuel' h.rest (by omega)).mono fun x t ⟨v, hread⟩ => ?_
    refine TurnReads.text (v := [('#' : ℤ)] ++ v) ?_ (by simp)
    exact hread.after (Drops.refl _) (le_refl _) fun _ hgood => hgood
  refine h.ite (fun h => percentToken_ensures h hfuel') ?_
  refine Ensures.ite (fun hc => ?_) fun _ => ?_
  · refine markedIdentifier_ensures h hfuel' ⟨?_, ?_, ?_⟩
    · rcases hc with hc | hc
      · exact Or.inr (Or.inr (Or.inr (Or.inl hc)))
      · exact Or.inr (Or.inl hc)
    · rintro rfl
      exact absurd hc (by decide)
    · rintro rfl
      exact absurd hc (by decide)
  refine Ensures.ite (fun hc => letterU_ensures h hfuel' hc) fun _ => ?_
  cases hsingle : singleToken c with
  | some type =>
    exact node_ensures (Drops.refl _) (le_refl _) (by omega) (singleToken_text hsingle) (by simp)
  | none =>
    refine Ensures.ite (fun hc => plainName_ensures h hfuel' hc) fun _ => ?_
    exact invalidCharacter_ensures (w := [c]) (Drops.refl _) (le_refl _) (by omega) (by simp)

/-- What a turn ends with where nothing is left. -/
structure Ended (s t : Lexer) (x : Option Token) : Prop where
  codes : s.codes = []
  token : x = some eofNode
  rest : t.codes = []
  errors : s.errors.length ≤ t.errors.length
  room : t.fUngetc.length ≤ 3

/-- What a turn does, from any state in which no more than three characters were put back. -/
theorem turn_ensures (hfine : Fine throws s.codes)
    (hdash : DashLost s.codes → throws .identifierStart) (hroom : s.fUngetc.length ≤ 3) :
    Ensures turn s throws fun x t =>
      Ended s t x ∨ TurnReads s.codes s.errors.length t x := by
  have hfuel := s.codes_lt_turns
  rw [turn]
  refine Ensures.bind (read_then hfine fun c t hgot hunget herrors => ?_)
  by_cases hc : c = eof
  · rw [tokenAt, if_pos hc]
    have hnil := hgot.codes
    rw [hc, take_eof, hgot.stop hc] at hnil
    exact Ensures.pure (Or.inl ⟨hnil, rfl, hgot.stop hc, herrors, by omega⟩)
  · have hcodes : s.codes = [c] ++ t.codes := by
      rw [hgot.codes, take_of_ne hc]
    have hready : Ready throws c t := ⟨hc, by rw [← hcodes]; exact hfine, by omega⟩
    refine (tokenAt_ensures hready (by rw [← hcodes]; exact hfuel)
      (by rw [← hcodes]; exact hdash)).mono fun x u hreads => Or.inr ?_
    rw [hcodes]
    exact hreads.earlier herrors

end Turns

end SnapCpp.Css
