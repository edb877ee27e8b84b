import SnapCpp.CssPrintedNames

/-!
Hashes that are printed and read again. A hash is written as it is: it is read again where all its
characters stand for themselves, and where one does not, less is read than was written.
-/
namespace SnapCpp.Css

variable {throws : Throw → Prop} {s t : Lexer} {room fuel : ℕ} {c f x : ℤ} {l v r out cs : List ℤ}

/-- The ends of lines are joined, and no other code is added. -/
theorem countP_normalise (x : ℤ) (l : List ℤ) :
    (normalise l).countP (· ≠ x) ≤ l.countP (asRead · ≠ x) := by
  induction hlength : l.length using Nat.strong_induction_on generalizing l with
  | _ n ih =>
    cases l with
    | nil => rw [normalise, List.countP_nil, List.countP_nil]
    | cons c l =>
      rw [List.length_cons] at hlength
      have hfirst : (normalise (if c = '\r' ∧ l.head? = some ('\n' : ℤ) then l.tail else l)).countP
          (· ≠ x) ≤ l.countP (asRead · ≠ x) := by
        have htail := List.length_tail (l := l)
        split_ifs
        · exact (ih _ (by omega) l.tail rfl).trans (List.tail_sublist l).countP_le
        · exact ih _ (by omega) l rfl
      rw [normalise, List.countP_cons, List.countP_cons]
      omega

theorem mem_of_normalise (hc : ¬ IsLine c) (h : c ∈ normalise l) : c ∈ l := by
  obtain ⟨d, hd, heq⟩ := mem_normalise h
  rwa [(asRead_eq_iff hc).mp heq.symm] at hd

theorem Spelled.forall_mem {piece : List ℤ → List ℤ → Prop} {p : ℤ → Prop}
    (h : Spelled piece v out) (hpiece : ∀ w o, piece w o → ∀ c ∈ o, p c) : ∀ c ∈ out, p c := by
  induction h with
  | nil => simp
  | cons hfirst _ ih =>
    intro c hc
    exact (List.mem_append.mp hc).elim (hpiece _ _ hfirst c) (ih c)

theorem NamePiece.isCode {raw : ℤ → Bool} {w o : List ℤ} (h : NamePiece raw w o) :
    ∀ c ∈ o, IsCode c := by
  cases h with
  | char _ hc => simpa using hc
  | escape _ _ hc => simpa using hc
  | dropped _ => simp

theorem isHashCharacter_isIdentifier (h : isHashCharacter c = true) : isIdentifier c = true := by
  simp only [isHashCharacter, isIdentifier, Bool.or_eq_true, Bool.and_eq_true] at h ⊢
  exact h.imp id And.left

theorem isHashCharacter_ne_replacement (h : isHashCharacter c = true) : c ≠ replacement := by
  rintro rfl
  exact absurd h (by decide)

theorem EndsLoop.isStop {e : ℤ} (h : EndsLoop e) : IsStop e := by
  refine ⟨?_, h.notSlash, h.ne_replacement⟩
  rw [Bool.eq_false_iff]
  intro hhex
  have hname := isHex_isIdentifier hhex
  rw [h.notName] at hname
  cases hname

theorem EndsLoop.not_hash {e : ℤ} (h : EndsLoop e) : isHashCharacter e = false := by
  rw [Bool.eq_false_iff]
  intro hhash
  have hname := isHashCharacter_isIdentifier hhash
  rw [h.notName] at hname
  cases hname

/-- A hash that is read with as many codes as were written holds none that is escaped. -/
theorem hash_exact (hplain : Plain cs) (hf : EndsName f)
    (hspelled : Spelled (NamePiece isHashCharacter) v out) (hout : spell out = spell cs)
    (hdrops : Drops (normalise (cs ++ [f])) (v ++ r)) : ∀ c ∈ cs, isHashCharacter c = true := by
  have hend := hf.endsLoop
  have hsame : out = cs :=
    spell_injective (hspelled.forall_mem fun _ _ h => h.isCode) hplain.isCode hout
  have hreplacement : replacement ∉ cs := by
    rw [← hsame]
    refine fun hmem => hspelled.forall_mem (p := (· ≠ replacement)) ?_ _ hmem rfl
    rintro w o h c hc
    cases h with
    | char hraw _ =>
      rw [List.mem_singleton.mp hc]
      exact isHashCharacter_ne_replacement hraw
    | escape _ hne _ => rwa [List.mem_singleton.mp hc]
    | dropped _ => cases hc
  have hread : v ++ r = normalise (cs ++ [f]) := by
    refine hdrops.eq fun hmem => ?_
    rcases List.mem_append.mp (mem_of_normalise (by decide) hmem) with hmem | hmem
    · exact hreplacement hmem
    · have hname := hf.notName
      rw [← List.mem_singleton.mp hmem] at hname
      exact absurd hname (by decide)
  have hcount : v.countP (· ≠ asRead f) ≤ out.length := by
    have hnormal := countP_normalise (asRead f) (cs ++ [f])
    rw [← hread, List.countP_append, List.countP_append, List.countP_cons_of_neg (by simp),
      List.countP_nil] at hnormal
    have hcs := List.countP_le_length (l := cs) (p := fun c => asRead c ≠ asRead f)
    rw [hsame]
    omega
  obtain ⟨hle, hexact⟩ := hspelled.weight fun w o h => h.weight hend.isStop hend.not_hash
  have hall := (hexact (le_antisymm hle hcount)).mem_exact
  have hslash : ('\\' : ℤ) ∉ v := by
    intro hmem
    have hcodes : ('\\' : ℤ) ∈ normalise (cs ++ [f]) := hread ▸ List.mem_append_left r hmem
    rcases List.mem_append.mp (mem_of_normalise (by decide) hcodes) with hmem | hmem
    · rcases hall _ (hsame ▸ hmem) with hraw | ⟨heq, -⟩
      · exact absurd hraw (by decide)
      · exact hend.notSlash heq.symm
    · exact hf.notSlash (List.mem_singleton.mp hmem).symm
  rw [← hsame]
  exact fun c hc => (hall c hc).elim id fun hlost => absurd hlost.2 hslash

theorem hashLoop_ahead (fuel : ℕ) (str : Bytes) (hplain : Plain cs) (hf : EndsName f)
    (hhash : ∀ c ∈ cs, isHashCharacter c = true) (h : Ahead s room (normalise (cs ++ [f])))
    (hroom : room < ungetSize) (hfuel : (normalise (cs ++ [f])).length < fuel) :
    Ensures (hashLoop fuel str) s throws fun str' t => str' = str ++ spell cs ∧ t.errors = [] := by
  induction fuel generalizing s cs str with
  | zero => omega
  | succ fuel ih =>
    rw [hashLoop]
    cases cs with
    | nil =>
      have hend := hf.endsLoop
      rw [List.nil_append, normalise_singleton] at h
      refine Ensures.bind (h.getc fun t ht => ?_)
      rw [if_neg hend.notSlash, if_neg (by simp [hend.not_hash])]
      refine Ensures.bind (ht.less.ungetc_hand (asRead_range hf.range) hroom
        fun u hu => Ensures.pure ⟨?_, hu.errors⟩)
      rw [spell_nil, List.append_nil]
    | cons c cs =>
      have hc := hhash c List.mem_cons_self
      have hline := isIdentifier_not_line (isHashCharacter_isIdentifier hc)
      rw [List.cons_append, normalise_cons hline] at h hfuel
      rw [List.length_cons] at hfuel
      refine Ensures.bind (h.getc fun t ht => ?_)
      rw [if_neg (by rintro rfl; exact absurd hc (by decide)), if_pos hc]
      refine Ensures.bind (ht.wctomb (hplain c List.mem_cons_self).1 fun ht => ?_)
      refine (ih (str ++ spell [c]) hplain.tail (List.forall_mem_cons.mp hhash).2
        ht.less (by omega)).mono fun str' u hread => ⟨?_, hread.2⟩
      rw [hread.1, List.append_assoc, ← spell_append, List.singleton_append]

theorem turn_hash (hplain : Plain cs) (hne : cs ≠ []) (hf : EndsName f)
    (h : Ahead s 0 (normalise (('#' : ℤ) :: (cs ++ [f])))) :
    Ensures turn s (fun _ => ¬ ∀ c ∈ cs, isHashCharacter c = true)
      (TurnOutcome .hash (spell cs) (∀ c ∈ cs, isHashCharacter c = true)) := by
  have hturns := s.codes_lt_turns
  have hstr : spell cs ≠ [] := by
    obtain ⟨c, ds, rfl⟩ := List.exists_cons_of_ne_nil hne
    obtain ⟨b, bs, hc⟩ := exists_encodes (hplain c List.mem_cons_self).1
    rw [hc.spell]
    simp
  rw [normalise_cons (by decide)] at h
  rw [h.codes, List.length_cons] at hturns
  rw [turn]
  refine Ensures.bind (Ensures.bind (h.getc fun t ht => ?_))
  change Ensures (hash s.turns) t _ _
  have hfuel : t.codes.length < s.turns := by
    rw [ht.codes]
    omega
  have hfine : Fine (fun _ => ¬ ∀ c ∈ cs, isHashCharacter c = true) t.codes := by
    refine ht.fine fun c hc => (normalise_range (fun d hd => ?_) c hc).2
    rcases List.mem_append.mp hd with hd | hd
    · exact hplain d hd
    · rw [List.mem_singleton.mp hd]
      exact ⟨hf.code, hf.ne⟩
  by_cases hgood : ∀ c ∈ cs, isHashCharacter c = true
  · refine Ensures.bind ((hashLoop_ahead s.turns [] hplain hf hgood ht (by decide)
      (by rw [← ht.codes]; exact hfuel)).mono fun str u hread => ?_)
    obtain ⟨hsame, herrors⟩ := hread
    rw [List.nil_append] at hsame
    rw [hsame, if_neg hstr]
    exact Ensures.pure (Or.inl ⟨_, rfl, iff_of_true ⟨rfl, rfl, herrors⟩ hgood⟩)
  · have hroom := ht.room
    refine Ensures.bind ((hashLoop_spells s.turns [] hfuel hfine (by omega)).mono
      fun str u hspells => ?_)
    obtain ⟨v, out, hsame, _, hread⟩ := hspells
    refine Ensures.ite (fun hnil => ?_) (fun _ => Ensures.pure (Or.inl ⟨_, rfl, ?_⟩))
    · refine Ensures.bind (report_ensures fun w _ herrors _ => Ensures.pure (Or.inr
        ⟨rfl, List.ne_nil_of_length_pos (by omega), hgood⟩))
    · refine iff_of_false ?_ hgood
      rintro ⟨-, hstr', herrors⟩
      refine hgood (hash_exact hplain hf (hread.good ?_) ?_ (ht.codes ▸ hread.drops))
      · rw [herrors, ht.errors]
      · rw [← hstr', hsame, List.nil_append]

/-- What is written for a name, and the character `f` behind it, is read as this name. -/
def PrintedBack (n : Token) (f : ℤ) : Prop :=
  ∃ text, outputName n = .ok (text, []) ∧ ReadsBack (text ++ spell [f]) n.fType n.fString

/-- What is written between two names is written without an error. -/
theorem plain_follower (hcs : Plain cs) (hf : EndsName f) : Plain (cs ++ [f]) := by
  intro c hc
  rcases List.mem_append.mp hc with hc | hc
  · exact hcs c hc
  · rw [List.mem_singleton.mp hc]
    exact ⟨hf.code, hf.ne⟩

theorem printedBack_identifier {n : Token} (htype : n.fType = .identifier)
    (hstr : n.fString = spell (c :: cs)) (hplain : Plain (c :: cs)) (hf : EndsName f) :
    PrintedBack n f ↔ Survives (c :: cs) f := by
  have htext : outputName n = .ok (spell (escapedCodes true (c :: cs)), []) := by
    rw [outputName, htype, if_neg (by decide), hstr, escapeId_spell hplain]
  have hall : Plain (escapedCodes true (c :: cs) ++ [f]) :=
    plain_follower (plain_escapedCodes hplain true) hf
  have hback := readsBack_iff hall (turn_identifier hplain hf (Ahead.start hall))
  rw [spell_append] at hback
  rw [PrintedBack, htext, htype, hstr, ← hback]
  constructor
  · rintro ⟨text, htext, hread⟩
    rwa [(Prod.mk.inj (Except.ok.inj htext)).1]
  · exact fun hread => ⟨_, rfl, hread⟩

theorem printedBack_hash {n : Token} (htype : n.fType = .hash) (hstr : n.fString = spell cs)
    (hne : cs ≠ []) (hplain : Plain cs) (hf : EndsName f) :
    PrintedBack n f ↔ ∀ c ∈ cs, isHashCharacter c = true := by
  have htext : outputName n = .ok (35 :: spell cs, []) := by
    rw [outputName, htype, if_pos rfl, hstr]
  have hall : Plain (('#' : ℤ) :: (cs ++ [f])) :=
    List.forall_mem_cons.mpr ⟨by decide, plain_follower hplain hf⟩
  have hback := readsBack_iff hall (turn_hash hplain hne hf (Ahead.start hall))
  rw [spell_ascii (by decide) (by decide), spell_append] at hback
  rw [PrintedBack, htext, htype, hstr, ← hback]
  constructor
  · rintro ⟨text, htext, hread⟩
    rw [← (Prod.mk.inj (Except.ok.inj htext)).1] at hread
    exact hread
  · exact fun hread => ⟨_, rfl, hread⟩

/-- The names that are printed and read again, of those that the lexer returns. -/
theorem names_printedBack {n : Token} (hnext : nextToken s = .ok (n, t))
    (htype : n.fType = .identifier ∨ n.fType = .hash) (hf : EndsName f) :
    ∃ cs, Plain cs ∧ n.fString = spell cs ∧
      (PrintedBack n f ↔
        if n.fType = .hash then ∀ c ∈ cs, isHashCharacter c = true else Survives cs f) := by
  obtain ⟨⟨cs, hplain, -, hstr⟩, hne⟩ := ((nextToken_returns s).of_ok hnext).name htype
  have hcs : cs ≠ [] := by
    rintro rfl
    exact hne hstr
  refine ⟨cs, hplain, hstr, ?_⟩
  rcases htype with htype | htype
  · obtain ⟨c, ds, rfl⟩ := List.exists_cons_of_ne_nil hcs
    rw [if_neg (by rw [htype]; decide)]
    exact printedBack_identifier htype hstr hplain hf
  · rw [if_pos htype]
    exact printedBack_hash htype hstr hcs hplain hf

/-- A hash that is read again, in front of a semicolon. -/
theorem hash_printedBack : ∃ n t, nextToken (.start [35, 97]) = .ok (n, t) ∧
    ∃ cs, Plain cs ∧ n.fString = spell cs ∧
      (PrintedBack n ';' ↔
        if n.fType = .hash then ∀ c ∈ cs, isHashCharacter c = true else Survives cs ';') :=
  ⟨{ fType := .hash, fString := [97] }, .start [], by rfl,
    names_printedBack (s := .start [35, 97]) (t := .start []) (by rfl) (Or.inr rfl)
      ⟨by decide, by decide, by decide, by decide⟩⟩

/-- A hash with a space in it is written without its escape. -/
theorem hash_loses_space :
    ¬ ∀ bytes n t f, nextToken (.start bytes) = .ok (n, t) →
      n.fType = .identifier ∨ n.fType = .hash → EndsName f → PrintedBack n f := by
  intro h
  obtain ⟨text, htext, tok, t, hread, -, hstr, -⟩ := h [35, 97, 92, 32, 98]
    { fType := .hash, fString := [97, 32, 98] } (.start []) ';' (by rfl) (Or.inr rfl)
    ⟨by decide, by decide, by decide, by decide⟩
  have htext' : text = [35, 97, 32, 98] := (Prod.mk.inj (Except.ok.inj htext)).1.symm
  have hspell : spell [(';' : ℤ)] = [59] := by decide
  rw [htext', hspell] at hread
  have hrun : (nextToken (.start [35, 97, 32, 98, 59])).map (fun p => p.1.fString) =
      .ok [97] := by rfl
  have hsame : (nextToken (.start [35, 97, 32, 98, 59])).map (fun p => p.1.fString) =
      .ok tok.fString := by
    change nextToken (.start [35, 97, 32, 98, 59]) = .ok (tok, t) at hread
    rw [hread]
    rfl
  rw [hrun, hstr] at hsame
  cases hsame

end SnapCpp.Css
