import SnapCpp.CssTurn
import SnapCpp.Runs

/-!
The tokens of a whole stream. As long as no character is above U+10FFFF and no minus sign is lost
behind a character that cannot be put back, the calls of the lexer end with the end of the stream.
Where no error is reported and nothing is lost, the characters are the texts of the tokens and of
the comments between them.
-/
namespace SnapCpp.Css

open Computability

variable {s t : Lexer} {x : Option Token} {tok : Token} {fuel : ℕ}

def Turns (s : Lexer) (xs : List (Option Token)) (t : Lexer) : Prop :=
  Runs (fun a x b => turn a = .ok (x, b)) s xs t

def Calls (s : Lexer) (tokens : List Token) (t : Lexer) : Prop :=
  Runs (fun a tok b => nextToken a = .ok (tok, b)) s tokens t

theorem nextTokenLoop_error {e : Throw} (h : turn s = .error e) :
    nextTokenLoop (fuel + 1) s = .error e := by
  change (turn s >>= fun p => _) = _
  rw [h]
  rfl

theorem nextTokenLoop_some (h : turn s = .ok (some tok, t)) :
    nextTokenLoop (fuel + 1) s = .ok (tok, t) := by
  change (turn s >>= fun p => _) = _
  rw [h]
  rfl

theorem nextTokenLoop_none (h : turn s = .ok (none, t)) :
    nextTokenLoop (fuel + 1) s = nextTokenLoop fuel t := by
  change (turn s >>= fun p => _) = _
  rw [h]
  rfl

theorem nextToken_eq (s : Lexer) : nextToken s = nextTokenLoop s.turns s := rfl

/-- A state from which every character may be put back, where there is room for it. -/
structure Sound (s : Lexer) : Prop where
  fine : Fine (fun _ => False) s.codes
  room : s.fUngetc.length ≤ 3

theorem Sound.turn (h : Sound s) (hdash : ¬ DashLost s.codes) :
    ∃ x t, turn s = .ok (x, t) ∧ (Ended s t x ∨ TurnReads s.codes s.errors.length t x) :=
  (turn_ensures h.fine hdash h.room).total

theorem Sound.next (h : Sound s)
    (hread : Ended s t x ∨ TurnReads s.codes s.errors.length t x) : Sound t := by
  rcases hread with hended | hread
  · refine ⟨?_, hended.room⟩
    rw [hended.rest]
    intro c hc
    cases hc
  · obtain ⟨v, r, _, _, hlast⟩ := id hread
    exact ⟨hread.fine h.fine, hlast.room⟩

theorem turn_dashLost (h : Sound s) (hdash : DashLost s.codes) :
    turn s = .error .identifierStart := by
  have hthrows : Ensures Css.turn s (· = .identifierStart) fun _ _ => False := by
    have hfine : Fine (· = Throw.identifierStart) s.codes := fun c hc =>
      ⟨(h.fine c hc).1, fun hlarge => ((h.fine c hc).2 hlarge).elim⟩
    have hroom := h.room
    obtain ⟨r, hcodes, hstart⟩ := hdash
    rw [Css.turn]
    refine Ensures.bind (read_then hfine fun c t hgot hunget _ => ?_)
    obtain ⟨rfl, hrest⟩ := hgot.eq_head hcodes
    change Ensures (signToken _ '-') t _ _
    rw [signToken]
    refine read_then hgot.fine fun n u hgot' hunget' _ => ?_
    obtain ⟨rfl, hrest'⟩ := hgot'.eq_head hrest
    rw [if_neg (by decide), if_neg (by decide), signRest, if_neg (by decide), if_neg (by decide)]
    refine Ensures.bind (ungetc_ensures (fun d hd => by rw [hand_replacement] at hd; cases hd)
      (by rw [ungetSize]; omega) fun y hback _ hunget'' => ?_)
    rw [hand_replacement, List.nil_append] at hback
    rw [if_pos (by decide), tokenOf, identifier, if_neg (by decide), if_neg (by decide),
      identifierDash, if_pos rfl]
    refine Ensures.bind (read_then (by rw [hback]; exact hgot'.fine) fun d z hgot'' _ _ => ?_)
    have hd : d ≠ '\\' ∧ isStartIdentifier d = false := by
      by_cases heof : d = eof
      · rw [heof]
        decide
      · refine hstart d z.codes ?_
        rw [← hrest', ← hback, hgot''.codes, take_of_ne heof]
        rfl
    rw [identifierStart, if_neg hd.1, if_neg (by rw [hd.2]; decide), if_neg (by decide)]
    exact Ensures.throw rfl
  cases hrun : Css.turn s with
  | ok p => exact (hthrows.of_ok (a := p.1) (t := p.2) hrun).elim
  | error e => rw [hthrows.of_error hrun]

/-- A call ends with a token where no turn of it loses a minus sign. -/
theorem nextTokenLoop_total (h : Sound s)
    (hkeep : ∀ xs t, Turns s xs t → ¬ DashLost t.codes) (hfuel : s.codes.length < fuel) :
    ∃ tok t xs, nextTokenLoop fuel s = .ok (tok, t) ∧ Turns s xs t ∧ Sound t ∧
      (tok.fType ≠ .eofToken → t.codes.length < s.codes.length) := by
  induction fuel generalizing s with
  | zero => omega
  | succ fuel ih =>
    obtain ⟨x, t, hturn, hread⟩ := h.turn (hkeep [] s (Runs.nil s))
    have ht := h.next hread
    have hfirst : Turns s [x] t := Runs.cons hturn (Runs.nil t)
    cases x with
    | some tok =>
      refine ⟨tok, t, [some tok], nextTokenLoop_some hturn, hfirst, ht, fun htype => ?_⟩
      rcases hread with hended | hread
      · rw [Option.some.inj hended.token] at htype
        exact absurd rfl htype
      · exact hread.length_lt
    | none =>
      have hlength : t.codes.length < s.codes.length := by
        rcases hread with hended | hread
        · cases hended.token
        · exact hread.length_lt
      obtain ⟨tok, u, xs, hloop, hturns, hu, hshorter⟩ :=
        ih ht (fun xs u hturns => hkeep _ u (Runs.cons hturn hturns)) (by omega)
      refine ⟨tok, u, none :: xs, ?_, Runs.cons hturn hturns, hu, fun htype => ?_⟩
      · rw [nextTokenLoop_none hturn, hloop]
      · exact (hshorter htype).trans hlength

theorem Turns.append {xs ys : List (Option Token)} {u : Lexer} (h : Turns s xs t)
    (h' : Turns t ys u) : Turns s (xs ++ ys) u := by
  induction h' with
  | nil => rwa [List.append_nil]
  | snoc _ hlast ih =>
    rw [← List.append_assoc]
    exact Runs.snoc ih hlast

theorem Calls.sound {tokens : List Token} (h : Calls s tokens t) (hs : Sound s)
    (hkeep : ∀ xs t, Turns s xs t → ¬ DashLost t.codes) : Sound t ∧ ∃ xs, Turns s xs t := by
  induction h with
  | nil => exact ⟨hs, [], Runs.nil s⟩
  | @snoc t u _ tok _ hlast ih =>
    obtain ⟨ht, xs, hturns⟩ := ih
    obtain ⟨tok', u', ys, hloop, hturns', hu, -⟩ := nextTokenLoop_total ht
      (fun ys u hys => hkeep _ u (hturns.append hys)) t.codes_lt_turns
    rw [nextToken_eq, hloop] at hlast
    obtain ⟨-, rfl⟩ := Prod.mk.inj (Except.ok.inj hlast)
    exact ⟨hu, _, hturns.append hturns'⟩

theorem exists_calls_eof (h : Sound s) (hkeep : ∀ xs t, Turns s xs t → ¬ DashLost t.codes) :
    ∃ tokens t tok u, Calls s tokens t ∧ nextToken t = .ok (tok, u) ∧ tok.fType = .eofToken := by
  induction hlength : s.codes.length using Nat.strong_induction_on generalizing s with
  | _ n ih =>
    obtain ⟨tok, t, xs, hloop, hturns, ht, hshorter⟩ :=
      nextTokenLoop_total h hkeep s.codes_lt_turns
    rw [← nextToken_eq] at hloop
    by_cases htype : tok.fType = .eofToken
    · exact ⟨[], s, tok, t, Runs.nil s, hloop, htype⟩
    · obtain ⟨tokens, u, tok', y, hcalls, hlast⟩ := ih _ (hlength ▸ hshorter htype) ht
        (fun ys u hys => hkeep _ u (hturns.append hys)) rfl
      exact ⟨tok :: tokens, u, tok', y, Runs.cons hloop hcalls, hlast⟩

/-- Every call on a stream returns a token, which takes at least one character unless it is the
end of the stream, and the end of the stream is returned at last. -/
def Total (bytes : Bytes) : Prop :=
  (∀ tokens s, Calls (.start bytes) tokens s → ∃ tok t, nextToken s = .ok (tok, t) ∧
    (tok.fType ≠ .eofToken → t.codes.length < s.codes.length) ∧ t.fUngetc.length ≤ ungetSize) ∧
  ∃ tokens s tok t, Calls (.start bytes) tokens s ∧ nextToken s = .ok (tok, t) ∧
    tok.fType = .eofToken

theorem start_codes (bytes : Bytes) :
    (Lexer.start bytes).codes = (characters bytes).map Prod.fst := rfl

theorem Sound.start {bytes : Bytes} (h : ∀ p ∈ characters bytes, p.1 ≤ 0x10FFFF) :
    Sound (.start bytes) := by
  refine ⟨fun c hc => ?_, Nat.zero_le _⟩
  rw [start_codes] at hc
  obtain ⟨p, hp, rfl⟩ := List.mem_map.mp hc
  exact ⟨characters_pos bytes p hp, fun hlarge => absurd (h p hp) (not_le.mpr hlarge)⟩

theorem Turns.call {xs : List (Option Token)} (h : Turns s xs t) (hs : Sound s) :
    Sound t ∧ ∃ tokens u fuel, Calls s tokens u ∧ nextToken u = nextTokenLoop fuel t ∧
      t.codes.length < fuel := by
  induction h with
  | nil => exact ⟨hs, [], s, s.turns, Runs.nil s, nextToken_eq s, s.codes_lt_turns⟩
  | @snoc t y xs x _ hlast ih =>
    obtain ⟨ht, tokens, u, fuel, hcalls, hloop, hfuel⟩ := ih
    have hdash : ¬ DashLost t.codes := by
      intro hdash
      rw [turn_dashLost ht hdash] at hlast
      cases hlast
    obtain ⟨x', y', hturn, hread⟩ := ht.turn hdash
    rw [hlast] at hturn
    obtain ⟨rfl, rfl⟩ := Prod.mk.inj (Except.ok.inj hturn)
    refine ⟨ht.next hread, ?_⟩
    obtain ⟨fuel, rfl⟩ : ∃ k, fuel = k + 1 := ⟨fuel - 1, by omega⟩
    cases x with
    | some tok =>
      rw [nextTokenLoop_some hlast] at hloop
      exact ⟨tokens ++ [tok], y, y.turns, Runs.snoc hcalls hloop, nextToken_eq y,
        y.codes_lt_turns⟩
    | none =>
      rw [nextTokenLoop_none hlast] at hloop
      have hlength : y.codes.length < t.codes.length := by
        rcases hread with hended | hread
        · cases hended.token
        · exact hread.length_lt
      exact ⟨tokens, u, fuel, hcalls, hloop, by omega⟩

/-- A stream whose minus signs are not lost is read to its end, and no other one is. -/
theorem total_iff (bytes : Bytes) (hrange : ∀ p ∈ characters bytes, p.1 ≤ 0x10FFFF) :
    Total bytes ↔ ∀ xs t, Turns (.start bytes) xs t → ¬ DashLost t.codes := by
  have hstart := Sound.start hrange
  constructor
  · rintro ⟨hcalls, -⟩ xs t hturns hdash
    obtain ⟨ht, tokens, u, fuel, hrun, hloop, hfuel⟩ := hturns.call hstart
    obtain ⟨tok, y, hnext, -⟩ := hcalls tokens u hrun
    obtain ⟨fuel, rfl⟩ : ∃ k, fuel = k + 1 := ⟨fuel - 1, by omega⟩
    rw [hloop, nextTokenLoop_error (turn_dashLost ht hdash)] at hnext
    cases hnext
  · intro hkeep
    refine ⟨fun tokens s hcalls => ?_, exists_calls_eof hstart hkeep⟩
    obtain ⟨hs, xs, hturns⟩ := hcalls.sound hstart hkeep
    obtain ⟨tok, t, ys, hloop, -, ht, hshorter⟩ := nextTokenLoop_total hs
      (fun ys u hys => hkeep _ u (hturns.append hys)) s.codes_lt_turns
    exact ⟨tok, t, by rw [nextToken_eq, hloop], hshorter, ht.room.trans (by decide)⟩

/-- `a`, which is read to its end if no minus sign is lost. -/
theorem total_iff_a : Total [97] ↔ ∀ xs t, Turns (.start [97]) xs t → ¬ DashLost t.codes := by
  refine total_iff [97] fun p hp => ?_
  rw [characters_cons] at hp
  rcases List.mem_cons.mp hp with rfl | hp
  · decide
  · rw [show (readChar 97 []).rest = [] from rfl, characters] at hp
    cases hp

/-- A minus sign, a null byte and a semicolon: the call throws. A character above U+10FFFF that is
looked at after an equal sign makes it throw as well. -/
theorem dash_null_throws :
    ¬ (∀ bytes, Total bytes) ∧
      nextToken (.start [45, 0, 59]) = .error .identifierStart ∧
      nextToken (.start [61, 0xF4, 0x90, 0x80, 0x80]) = .error .ungetcRange := by
  have hdash : nextToken (.start [45, 0, 59]) = .error .identifierStart := by rfl
  refine ⟨fun h => ?_, hdash, by rfl⟩
  obtain ⟨tok, t, hnext, -⟩ := (h [45, 0, 59]).1 [] _ (Runs.nil _)
  rw [hdash] at hnext
  cases hnext

/-- A state whose characters hold no U+FFFD. -/
structure Clean (s : Lexer) : Prop where
  fine : Fine (fun _ => True) s.codes
  room : s.fUngetc.length ≤ 3
  notMem : replacement ∉ s.codes

theorem Clean.turn (h : Clean s) (hturn : turn s = .ok (x, t)) :
    Clean t ∧ s.errors.length ≤ t.errors.length ∧
      (t.errors.length = s.errors.length → ¬ Loses s.codes →
        ∃ v ∈ turnText x, s.codes = v ++ t.codes) := by
  rcases (turn_ensures h.fine (fun _ => trivial) h.room).of_ok hturn with hended | hread
  · refine ⟨⟨?_, hended.room, ?_⟩, hended.errors, fun _ _ => ⟨[], ?_, ?_⟩⟩
    · rw [hended.rest]
      intro c hc
      cases hc
    · rw [hended.rest]
      exact List.not_mem_nil
    · rw [hended.token]
      rfl
    · rw [hended.codes, hended.rest]
      rfl
  · obtain ⟨v, r, _, _, hlast⟩ := id hread
    exact ⟨⟨hread.fine h.fine, hlast.room, hread.notMem h.notMem⟩, hlast.errors,
      fun herrors hloses => hread.exact h.notMem herrors hloses⟩

theorem nextTokenLoop_text (h : Clean s) (hrun : nextTokenLoop fuel s = .ok (tok, t)) :
    Clean t ∧ s.errors.length ≤ t.errors.length ∧ ∃ xs, xs ≠ [] ∧ Turns s xs t ∧
      (t.errors.length = s.errors.length →
        (∀ xs ys u, Turns s xs u → Turns u ys t → ys ≠ [] → ¬ Loses u.codes) →
        ∃ v ∈ commentText∗ * lexeme tok.fType, s.codes = v ++ t.codes) := by
  induction fuel generalizing s with
  | zero => cases hrun
  | succ fuel ih =>
    cases hturn : turn s with
    | error e =>
      rw [nextTokenLoop_error hturn] at hrun
      cases hrun
    | ok p =>
      obtain ⟨x, u⟩ := p
      obtain ⟨hu, herrors, htext⟩ := h.turn hturn
      have hfirst : Turns s [x] u := Runs.cons hturn (Runs.nil u)
      cases x with
      | some tok' =>
        rw [nextTokenLoop_some hturn] at hrun
        obtain ⟨rfl, rfl⟩ := Prod.mk.inj (Except.ok.inj hrun)
        refine ⟨hu, herrors, [some tok'], by simp, hfirst, fun heq hkeep => ?_⟩
        obtain ⟨v, hv, hcodes⟩ := htext heq (hkeep [] _ s (Runs.nil s) hfirst (by simp))
        exact ⟨v, List.nil_append v ▸ Language.append_mem_mul (Language.nil_mem_kstar _) hv, hcodes⟩
      | none =>
        rw [nextTokenLoop_none hturn] at hrun
        obtain ⟨ht, herrors', xs, hne, hturns, hmore⟩ := ih hu hrun
        have hall : Turns s (none :: xs) t := Runs.cons hturn hturns
        refine ⟨ht, herrors.trans herrors', none :: xs, by simp, hall, fun heq hkeep => ?_⟩
        obtain ⟨v, hv, hcodes⟩ := htext (by omega) (hkeep [] _ s (Runs.nil s) hall (by simp))
        obtain ⟨w, hw, hcodes'⟩ := hmore (by omega) fun xs ys y hxs hys hys' =>
          hkeep _ ys y (Runs.cons hturn hxs) hys hys'
        obtain ⟨a, ha, b, hb, rfl⟩ := Language.mem_mul.mp hw
        refine ⟨v ++ a ++ b, Language.append_mem_mul (cons_mem_kstar hv ha) hb, ?_⟩
        rw [hcodes, hcodes', List.append_assoc, List.append_assoc, List.append_assoc]

theorem Clean.start {bytes : Bytes} (h : replacement ∉ (characters bytes).map Prod.fst) :
    Clean (.start bytes) := by
  refine ⟨fun c hc => ?_, Nat.zero_le _, h⟩
  rw [start_codes] at hc
  obtain ⟨p, hp, rfl⟩ := List.mem_map.mp hc
  exact ⟨characters_pos bytes p hp, fun _ => trivial⟩

theorem Calls.clean {tokens : List Token} (h : Calls s tokens t) (hs : Clean s) :
    Clean t ∧ s.errors.length ≤ t.errors.length ∧ ∃ xs, Turns s xs t := by
  induction h with
  | nil => exact ⟨hs, le_refl _, [], Runs.nil s⟩
  | snoc _ hlast ih =>
    obtain ⟨ht, herrors, xs, hturns⟩ := ih
    rw [nextToken_eq] at hlast
    obtain ⟨hu, herrors', ys, -, hturns', -⟩ := nextTokenLoop_text ht hlast
    exact ⟨hu, herrors.trans herrors', xs ++ ys, hturns.append hturns'⟩

def Partitioned (l : List ℤ) (tokens : List Token) (t : Lexer) : Prop :=
  ∃ texts, List.Forall₂ (fun w tok => w ∈ commentText∗ * lexeme tok.fType) texts tokens ∧
    l = texts.flatten ++ t.codes

theorem Calls.partitioned {tokens : List Token} (h : Calls s tokens t) (hs : Clean s)
    (herrors : t.errors.length = s.errors.length)
    (hkeep : ∀ xs ys u, Turns s xs u → Turns u ys t → ys ≠ [] → ¬ Loses u.codes) :
    Partitioned s.codes tokens t := by
  induction h with
  | nil => exact ⟨[], List.Forall₂.nil, rfl⟩
  | @snoc t u _ tok hrun hlast ih =>
    obtain ⟨ht, he, xs, hturns⟩ := Calls.clean hrun hs
    rw [nextToken_eq] at hlast
    obtain ⟨-, he', ys, hne, hturns', htext⟩ := nextTokenLoop_text ht hlast
    obtain ⟨texts, htexts, hcodes⟩ := ih (by omega) fun xs' ys' y hxs hys hys' =>
      hkeep xs' (ys' ++ ys) y hxs (hys.append hturns') (by simp [hys'])
    obtain ⟨v, hv, hcodes'⟩ := htext (by omega) fun xs' ys' y hxs hys hys' =>
      hkeep (xs ++ xs') ys' y (hturns.append hxs) hys hys'
    refine ⟨texts ++ [v], List.rel_append htexts (List.Forall₂.cons hv List.Forall₂.nil), ?_⟩
    rw [hcodes, hcodes', List.flatten_append, List.append_assoc]
    simp

/-- Nothing is lost of a stream on which no error is reported, as long as it has no U+FFFD and no
turn starts with one of the three texts that lose a character. -/
theorem calls_partitioned (bytes : Bytes) (tokens : List Token) (t : Lexer)
    (hcalls : Calls (.start bytes) tokens t) (herrors : t.errors = [])
    (hnone : replacement ∉ (characters bytes).map Prod.fst)
    (hkeep : ∀ xs ys s, Turns (.start bytes) xs s → Turns s ys t → ys ≠ [] → ¬ Loses s.codes) :
    Partitioned ((characters bytes).map Prod.fst) tokens t := by
  rw [← start_codes]
  refine hcalls.partitioned (Clean.start hnone) ?_ hkeep
  rw [herrors]
  rfl

theorem exists_digit_of_numeral {n : List ℤ} (h : n ∈ numeral) : ∃ d ∈ n, isDigit d = true := by
  have hdigits : ∀ v ∈ digits, ∃ d ∈ v, isDigit d = true := by
    intro v hv
    obtain ⟨a, ⟨d, hd, ha⟩, b, hb, rfl⟩ := Language.mem_mul.mp hv
    exact ⟨d, by rw [ha]; simp, hd⟩
  obtain ⟨v, hv, x, hx, rfl⟩ := Language.mem_mul.mp h
  obtain ⟨a, ha, b, hb, rfl⟩ := Language.mem_mul.mp hv
  rcases hb with hb | hb
  · obtain ⟨d, hmem, hd⟩ := hdigits b hb
    exact ⟨d, by simp [hmem], hd⟩
  · obtain ⟨m, hm, f, hf, rfl⟩ := Language.mem_mul.mp hb
    obtain ⟨period, hperiod, g, hg, rfl⟩ := Language.mem_mul.mp hf
    obtain ⟨d, hmem, hd⟩ := hdigits g hg
    exact ⟨d, by simp [hmem], hd⟩

theorem not_loses {l : List ℤ} (h : l.all (fun c => !isDigit c && c ≠ '%' && c ≠ 'u' && c ≠ 'U')) :
    ¬ Loses l := by
  have hall : ∀ c ∈ l, isDigit c = false ∧ c ≠ '%' ∧ c ≠ 'u' ∧ c ≠ 'U' := by
    intro c hc
    have hok := List.all_eq_true.mp h c hc
    simp only [Bool.and_eq_true, Bool.not_eq_true', decide_eq_true_eq] at hok
    exact ⟨hok.1.1.1, hok.1.1.2, hok.1.2, hok.2⟩
  rintro (⟨c, r, rfl, -⟩ | ⟨n, u, r, rfl, hn, -⟩ | ⟨p, v, r, rfl, hp, -⟩)
  · exact (hall _ List.mem_cons_self).2.1 rfl
  · obtain ⟨d, hmem, hd⟩ := exists_digit_of_numeral hn
    have hnot := (hall d (by simp [hmem])).1
    rw [hd] at hnot
    cases hnot
  · obtain ⟨a, ha, b, -, rfl⟩ := Language.mem_mul.mp hp
    rcases ha with rfl | rfl
    · exact (hall 'u' (by simp)).2.2.1 rfl
    · exact (hall 'U' (by simp)).2.2.2 rfl

/-- A stream that is a semicolon. -/
theorem semicolon_partitioned :
    Partitioned ((characters [59]).map Prod.fst) [{ fType := .semicolon }] (.start []) := by
  have hchars : (characters [59]).map Prod.fst = [59] := by
    rw [characters_cons, show (readChar 59 []).rest = [] from rfl, characters]
    rfl
  have hnil : (Lexer.start []).codes = [] := by rw [start_codes, characters]; rfl
  have hstates : ∀ xs s, Turns (.start [59]) xs s → s = .start [59] ∨ s = .start [] := by
    intro xs s hturns
    refine Runs.invariant (fun a => a = .start [59] ∨ a = .start []) hturns (Or.inl rfl)
      fun a x b ha hstep => Or.inr ?_
    rcases ha with rfl | rfl
    · exact (Prod.mk.inj (Except.ok.inj hstep)).2.symm
    · exact (Prod.mk.inj (Except.ok.inj hstep)).2.symm
  refine calls_partitioned [59] [{ fType := .semicolon }] (.start [])
    (Runs.cons (by rfl) (Runs.nil _)) rfl ?_ fun xs ys s hxs _ _ => ?_
  · rw [hchars]
    decide
  · rcases hstates xs s hxs with rfl | rfl
    · rw [start_codes, hchars]
      exact not_loses (by decide)
    · rw [hnil]
      exact not_loses (by decide)

/-- A semicolon behind a percent sign is lost. -/
theorem percent_loses_semicolon :
    ¬ ∀ bytes tokens t, Calls (.start bytes) tokens t → t.errors = [] →
      Partitioned ((characters bytes).map Prod.fst) tokens t := by
  intro h
  have hchars : (characters [37, 59]).map Prod.fst = [37, 59] := by
    rw [characters_cons, show (readChar 37 [59]).rest = [59] from rfl, characters_cons,
      show (readChar 59 []).rest = [] from rfl, characters]
    rfl
  have hnil : (Lexer.start []).codes = [] := by rw [start_codes, characters]; rfl
  obtain ⟨texts, htexts, hcodes⟩ := h [37, 59] [{ fType := .modulo }] (.start [])
    (Runs.cons (by rfl) (Runs.nil _)) rfl
  obtain ⟨w, texts, hw, hrest, rfl⟩ := List.forall₂_cons_right_iff.mp htexts
  rw [List.forall₂_nil_right_iff.mp hrest, hnil, hchars, List.append_nil] at hcodes
  obtain ⟨a, _, b, hb, rfl⟩ := Language.mem_mul.mp hw
  have hlast := congrArg List.getLast? hcodes
  rw [hb] at hlast
  simp at hlast

end SnapCpp.Css
