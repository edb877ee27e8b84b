import SnapCpp.DomainTexts
import SnapCpp.Ensures
import SnapCpp.TldTable

/-!
The two encodings of a name. `tld_encode()` writes the table when libtld is built, with
hexadecimal digits in lowercase; `tld_domain_to_lowercase()` prepares the domains that are
looked up in it, with uppercase digits and a few more bytes left as they are. The name of
a table is found under every spelling of it only if no byte is written differently.
-/
namespace SnapCpp.TldSpelling

open TldEmails EmailDomain TldParser TldNames TldTable DomainLowercase Utf Pieces

def writtenAlike (c : Char) : Bool :=
  c.isAlphanum || c ∈ ['.', '-', ' ', '"', '#', '$', '%', '\'', '(', ')', '@', '\x60']

def tableBytes (key : QString) : Bytes :=
  ((key.splitOn bang).filter (· ≠ [])).reverse.flatMap fun l => 0x2E :: outputUtf8 l

def IsDotted (name : Bytes) : Prop :=
  ∃ labels : List Bytes, (∀ l ∈ labels, l ≠ [] ∧ 0x2E ∉ l) ∧ name = labels.flatMap (0x2E :: ·)

section Lowercase

variable {towlower : ℕ → ℕ} {cs : List Char} {s : Bytes}

theorem text_of_settled (hcs : ∀ c ∈ cs, Settled towlower c.toNat ∧ c.toNat ≠ 0)
    (h : Spells s (utf8 cs)) :
    Text towlower s (cs.map Char.toNat) := by
  have hsame : ∀ c ∈ cs, lowerCode towlower c.toNat = c.toNat := by
    intro c hc
    unfold lowerCode
    split_ifs with hlow hupper
    · exact absurd hupper ((hcs c hc).1.ascii hlow)
    · rfl
    · exact (hcs c hc).1.other (not_lt.mp hlow)
  have htext : Text towlower _ _ := text_of_ne_zero h fun c hc => by
    rw [hsame c hc]
    exact (hcs c hc).2
  rwa [List.map_congr_left hsame] at htext

/-- What is made of any spelling of characters in lowercase, unless the buffer is too small. -/
theorem lowercaseFrom_spells (turns room : ℕ) {r : Bytes}
    (hcs : ∀ c ∈ cs, Settled towlower c.toNat ∧ c.toNat ≠ 0) (h : Spells s (utf8 cs))
    (hturns : s.length < turns) (hr : lowercaseFrom towlower turns room s = some r) :
    (∀ c ∈ cs, ¬IsNonCharacter c) ∧ r = bytesOut (utf8 cs) := by
  obtain ⟨ds, htext, hnon, -, rfl⟩ := (lowercaseFrom_iff turns room hturns).mp hr
  have hsame := text_unique htext (text_of_settled hcs h)
  obtain rfl := List.map_injective_iff.mpr (fun c d => Char.toNat_inj.mp) hsame
  exact ⟨hnon, rfl⟩

def escapeAll (name : Bytes) : Bytes :=
  name.flatMap fun b => [0x25, tldDec2hex (b.toNat / 16), tldDec2hex (b.toNat % 16)]

theorem spells_escapeAll (name : Bytes) : Spells (escapeAll name) name := by
  induction name with
  | nil => exact Spells.nil
  | cons b name ih =>
    have hb := b.toNat_lt
    exact Spells.escaped (hex2dec_dec2hex (by omega)) (hex2dec_dec2hex (by omega)) ih

theorem escapeAll_length (name : Bytes) : (escapeAll name).length = 3 * name.length := by
  induction name with
  | nil => rfl
  | cons b name ih =>
    have hcons : escapeAll (b :: name) =
        [0x25, tldDec2hex (b.toNat / 16), tldDec2hex (b.toNat % 16)] ++ escapeAll name := rfl
    rw [hcons, List.length_append, ih, List.length_cons]
    simp only [List.length_cons, List.length_nil]
    omega

theorem lowercaseFrom_isSome (turns room : ℕ)
    (hcs : ∀ c ∈ cs, Settled towlower c.toNat ∧ c.toNat ≠ 0) (hnon : ∀ c ∈ cs, ¬IsNonCharacter c)
    (h : Spells s (utf8 cs)) (hturns : s.length < turns) (hroom : 3 * (utf8 cs).length ≤ room) :
    lowercaseFrom towlower turns room s = some (bytesOut (utf8 cs)) :=
  (lowercaseFrom_iff turns room hturns).mpr
    ⟨cs, text_of_settled hcs h, hnon, (bytesOut_length (utf8 cs)).trans hroom, rfl⟩

end Lowercase

def tableByte (b : UInt8) : Bytes :=
  if b = 0x2E then [0x2E] else (encoded b).map UInt16.toUInt8

theorem splitOn_joinBang {ws : List QString} (h : ∀ w ∈ ws, w ≠ [] ∧ bang ∉ w) :
    ((joinBang ws).splitOn bang).filter (· ≠ []) = ws := by
  have hkept : ws.filter (· ≠ []) = ws := by
    rw [List.filter_eq_self]
    intro w hw
    simpa using (h w hw).1
  cases ws with
  | nil => rfl
  | cons w ws =>
    have hjoin : joinBang (w :: ws) = [bang].intercalate (w :: ws ++ [[]]) := by
      rw [joinBang_eq_joined (List.cons_ne_nil w ws), intercalate_concat_nil]
      rfl
    rw [hjoin, List.splitOn_intercalate bang _ (by simp), List.filter_append, hkept]
    · simp
    · intro v hv
      rcases List.mem_append.mp hv with hv | hv
      · exact (h v hv).2
      · rw [List.mem_singleton.mp hv]
        exact List.not_mem_nil

variable {level : ℕ} {t key : QString} {b : UInt8}

theorem tableBytes_eq (h : tldEncode t = .ok (key, level))
    {ps : List Bytes} (hne : ps ≠ []) (hps : ∀ p ∈ ps, 0x2E ∉ p)
    (ht : toUtf8 t = [0x2E].intercalate ps) :
    tableBytes key = (ps.filter (· ≠ [])).flatMap fun p => 0x2E :: p.flatMap tableByte := by
  have hencoded : ∀ b : UInt8, b ≠ 0x2E → bang ∉ encoded b :=
    fun b hb hmem => lt_irrefl _ (mem_encoded hb hmem).1
  have hsplit : ((toUtf8 t).flatMap encoded).splitOn bang = ps.map (·.flatMap encoded) := by
    rw [ht]
    exact splitOn_flatMap encoded_dot hencoded hne hps
  have hlabel : ∀ p ∈ ps, p ≠ [] → IsLabel (p.flatMap encoded) :=
    fun p hp hpne => isLabel_flatMap hpne (hps p hp)
  have hkept : (ps.map (·.flatMap encoded)).filter (· ≠ []) =
      (ps.filter (· ≠ [])).map (·.flatMap encoded) := by
    rw [List.filter_map]
    congr 1
    apply List.filter_congr
    intro p hp
    by_cases hpne : p = []
    · simp [hpne]
    · simp [hpne, (hlabel p hp hpne).ne_nil]
  obtain ⟨rfl, -, -⟩ := tldEncode_ok h
  have hlabels : ∀ w ∈ (((toUtf8 t).flatMap encoded).splitOn bang).filter (· ≠ []),
      IsLabel w := by
    rw [hsplit, hkept]
    intro w hw
    obtain ⟨p, hp, rfl⟩ := List.mem_map.mp hw
    exact hlabel p (List.mem_of_mem_filter hp) (by simpa using (List.mem_filter.mp hp).2)
  unfold tableBytes
  rw [splitOn_joinBang, List.reverse_reverse, hsplit, hkept, List.flatMap_map]
  · apply List.flatMap_congr
    intro p hp
    have hpne : p ≠ [] := by simpa using (List.mem_filter.mp hp).2
    have hp' := List.mem_of_mem_filter hp
    rw [outputUtf8_label (hlabel p hp' hpne), List.map_flatMap]
    congr 1
    apply List.flatMap_congr
    intro b hb
    have hdot : b ≠ 0x2E := fun heq => hps p hp' (heq ▸ hb)
    rw [tableByte, if_neg hdot]
  · intro w hw
    have := hlabels w (List.mem_reverse.mp hw)
    exact ⟨this.ne_nil, this.mark_notMem⟩

theorem tableByte_dot : tableByte 0x2E = [0x2E] := rfl

theorem byteOut_dot : tldByteOut (0x2E : UInt8).toNat = [0x2E] := by decide

theorem dot_notMem_byteOut (h : b ≠ 0x2E) : 0x2E ∉ tldByteOut b.toNat := by
  revert b
  decide +kernel

theorem byteOut_tableByte (b : UInt8) : tldByteOut b.toNat = tableByte b ∨
    ∀ s t, tldByteOut b.toNat ++ s ≠ tableByte b ++ t := by
  have hall : ∀ b : UInt8, tldByteOut b.toNat = tableByte b ∨
      ¬tldByteOut b.toNat <+: tableByte b ∧ ¬tableByte b <+: tldByteOut b.toNat := by
    decide +kernel
  rcases hall b with heq | ⟨hout, htable⟩
  · exact Or.inl heq
  · refine Or.inr fun s t heq => ?_
    rcases List.append_eq_append_iff.mp heq with ⟨r, hr, -⟩ | ⟨r, hr, -⟩
    · exact hout ⟨r, hr.symm⟩
    · exact htable ⟨r, hr.symm⟩

theorem splitOn_labels {ws : List Bytes} (h : ∀ w ∈ ws, 0x2E ∉ w) :
    (ws.flatMap (0x2E :: ·)).splitOn 0x2E = [] :: ws := by
  rw [← intercalate_nil_cons]
  refine List.splitOn_intercalate 0x2E ?_ (by simp)
  intro w hw
  rcases List.mem_cons.mp hw with rfl | hw
  · exact List.not_mem_nil
  · exact h w hw

theorem dot_notMem_tableByte (h : b ≠ 0x2E) : 0x2E ∉ tableByte b := by
  revert b
  decide +kernel

theorem bytesOut_eq_nil {p : Bytes} (h : bytesOut p = []) : p = [] := by
  cases p with
  | nil => rfl
  | cons b p =>
    have hlength := (byteOut_length b.toNat).1
    have hcons : bytesOut (b :: p) = tldByteOut b.toNat ++ bytesOut p := rfl
    rw [hcons, List.append_eq_nil_iff] at h
    rw [h.1] at hlength
    simp at hlength

/-- The bytes of a name are what its table holds if labels make up the name and no byte is
written differently. -/
theorem bytesOut_eq_iff (h : tldEncode t = .ok (key, level)) :
    bytesOut (toUtf8 t) = tableBytes key ↔
      IsDotted (toUtf8 t) ∧ ∀ b ∈ toUtf8 t, tldByteOut b.toNat = tableByte b := by
  constructor
  · intro heq
    obtain ⟨ps, hne, hps, ht⟩ := exists_pieces 0x2E (toUtf8 t)
    have hout : (([0x2E].intercalate ps).flatMap fun b => tldByteOut b.toNat).splitOn 0x2E =
        ps.map (·.flatMap fun b => tldByteOut b.toNat) :=
      splitOn_flatMap (x := 0x2E) (y := 0x2E) byteOut_dot
        (fun b hb => dot_notMem_byteOut hb) hne hps
    have htable : ∀ w ∈ (ps.filter (· ≠ [])).map (·.flatMap tableByte), 0x2E ∉ w := by
      intro w hw
      obtain ⟨p, hp, rfl⟩ := List.mem_map.mp hw
      exact notMem_flatMap (fun b hb => dot_notMem_tableByte hb) (hps p (List.mem_of_mem_filter hp))
    have hsame := splitOn_labels htable
    rw [List.flatMap_map] at hsame
    rw [tableBytes_eq h hne hps ht] at heq
    rw [← heq, ht, bytesOut, hout] at hsame
    obtain ⟨p, ps, rfl⟩ := List.exists_cons_of_ne_nil hne
    obtain ⟨hfirst, hrest⟩ := List.cons.inj hsame
    obtain rfl : p = [] := bytesOut_eq_nil hfirst
    have hskip : ([] :: ps).filter (· ≠ []) = ps.filter (· ≠ []) :=
      List.filter_cons_of_neg (by simp)
    rw [hskip] at hrest
    have hkept : ps.filter (· ≠ []) = ps := by
      have hlength := congrArg List.length hrest
      rw [List.length_map, List.length_map] at hlength
      exact List.filter_eq_self.mpr (List.length_filter_eq_length_iff.mp hlength.symm)
    rw [hkept] at hrest
    have hlabels : ∀ l ∈ ps, l ≠ [] ∧ 0x2E ∉ l := by
      intro l hl
      exact ⟨by simpa using List.filter_eq_self.mp hkept l hl, hps l (List.mem_cons_of_mem _ hl)⟩
    rw [ht, intercalate_nil_cons]
    refine ⟨⟨ps, hlabels, rfl⟩, ?_⟩
    intro b hb
    obtain ⟨l, hl, hbl⟩ := List.mem_flatMap.mp hb
    rcases List.mem_cons.mp hbl with rfl | hbl
    · rw [byteOut_dot, tableByte_dot]
    · exact (flatMap_eq_iff byteOut_tableByte l).mp (List.map_inj_left.mp hrest l hl) b hbl
  · rintro ⟨⟨labels, hlabels, ht⟩, hbytes⟩
    have hps : ∀ p ∈ [] :: labels, 0x2E ∉ p :=
      List.forall_mem_cons.mpr ⟨List.not_mem_nil, fun l hl => (hlabels l hl).2⟩
    have hkept : ([] :: labels).filter (· ≠ []) = labels := by
      rw [List.filter_cons_of_neg (by simp), List.filter_eq_self]
      intro l hl
      simpa using (hlabels l hl).1
    rw [tableBytes_eq h (List.cons_ne_nil _ _) hps (by rw [intercalate_nil_cons, ht]), hkept]
    have hsame : bytesOut (toUtf8 t) = (toUtf8 t).flatMap tableByte := List.flatMap_congr hbytes
    rw [hsame, ht, List.flatMap_assoc]
    rfl

/-- A byte that `tld_encode()` does not refuse. -/
def IsAccepted (b : UInt8) : Prop := 0x20 ≤ b ∧ b ≠ 0x2F ∧ b ≠ 0x3A ∧ b ≠ 0x26

theorem accepted_of_encodeByte {s : QString} (h : encodeByte t b = .ok s) :
    IsAccepted b := by
  unfold encodeByte at h
  by_cases hcontrol : b < 0x20
  · rw [if_pos hcontrol] at h
    cases h
  rw [if_neg hcontrol] at h
  refine ⟨UInt8.not_lt.mp hcontrol, ?_⟩
  by_cases htaken : isTaken b = true
  · have hall : ∀ b : UInt8, isTaken b = true → b ≠ 0x2F ∧ b ≠ 0x3A ∧ b ≠ 0x26 := by
      decide +kernel
    exact hall b htaken
  · rw [if_neg htaken] at h
    split_ifs at h with hrefused
    exact ⟨fun heq => hrefused (Or.inl heq), fun heq => hrefused (Or.inr (Or.inl heq)),
      fun heq => hrefused (Or.inr (Or.inr heq))⟩

theorem accepted_of_tldEncode (h : tldEncode t = .ok (key, level)) :
    ∀ b ∈ toUtf8 t, IsAccepted b := by
  have hmapM : ∀ (bytes : Bytes) (result : List QString), bytes.mapM (encodeByte t) = .ok result →
      ∀ b ∈ bytes, IsAccepted b := by
    intro bytes
    induction bytes with
    | nil => simp
    | cons b bytes ih =>
      intro result hresult
      rw [List.mapM_cons] at hresult
      obtain ⟨s, hb, hresult⟩ := bind_eq_ok hresult
      cases hrest : bytes.mapM (encodeByte t) with
      | error e =>
        rw [hrest] at hresult
        cases hresult
      | ok r => exact List.forall_mem_cons.mpr ⟨accepted_of_encodeByte hb, ih r hrest⟩
  unfold tldEncode at h
  dsimp only at h
  cases hr : (toUtf8 t).mapM (encodeByte t) with
  | error e =>
    rw [hr] at h
    cases h
  | ok result => exact hmapM _ _ hr

theorem ascii_of_writtenAlike {c : Char} (h : writtenAlike c = true) : c.toNat < 0x80 := by
  unfold writtenAlike at h
  rw [Bool.or_eq_true, decide_eq_true_eq] at h
  rcases h with halnum | hlist
  · simp only [Char.isAlphanum, Char.isAlpha, Char.isUpper, Char.isLower, Char.isDigit,
      Bool.or_eq_true, Bool.and_eq_true, decide_eq_true_eq, ge_iff_le, UInt32.le_iff_toNat_le]
      at halnum
    rcases halnum with (⟨-, hupper⟩ | ⟨-, hlower⟩) | ⟨-, hdigit⟩
    · exact Nat.lt_of_le_of_lt hupper (by decide)
    · exact Nat.lt_of_le_of_lt hlower (by decide)
    · exact Nat.lt_of_le_of_lt hdigit (by decide)
  · simp only [List.mem_cons, List.not_mem_nil, or_false] at hlist
    rcases hlist with h | h | h | h | h | h | h | h | h | h | h | h <;> rw [h] <;> decide

theorem writtenAlike_iff {c : Char} (h : ∀ b ∈ utf8Char c, IsAccepted b) :
    (∀ b ∈ utf8Char c, tldByteOut b.toNat = tableByte b) ↔ writtenAlike c = true := by
  by_cases hascii : c.toNat < 0x80
  · have hutf8 : utf8Char c = [c.toNat.toUInt8] := if_pos hascii
    have hall : ∀ n : Fin 128, IsAccepted n.val.toUInt8 →
        (tldByteOut n.val.toUInt8.toNat = tableByte n.val.toUInt8 ↔
          writtenAlike (Char.ofNat n.val) = true) := by
      unfold IsAccepted
      decide
    rw [hutf8, List.forall_mem_singleton] at h ⊢
    have := hall ⟨c.toNat, hascii⟩ h
    rwa [Char.ofNat_toNat] at this
  · have hall : ∀ b : UInt8, 0xC0 ≤ b.toNat → tldByteOut b.toNat ≠ tableByte b := by
      decide +kernel
    have hfirst : ∃ b ∈ utf8Char c, 0xC0 ≤ b.toNat := by
      have hlt := char_lt c
      unfold utf8Char
      split_ifs
      · exact ⟨_, List.mem_cons_self, by rw [toNat_toUInt8 (by omega)]; omega⟩
      · exact ⟨_, List.mem_cons_self, by rw [toNat_toUInt8 (by omega)]; omega⟩
      · exact ⟨_, List.mem_cons_self, by rw [toNat_toUInt8 (by omega)]; omega⟩
    obtain ⟨b, hb, hhigh⟩ := hfirst
    refine iff_of_false (fun hsame => hall b hhigh (hsame b hb)) ?_
    exact fun halike => hascii (ascii_of_writtenAlike halike)

section Names

variable {towlower : ℕ → ℕ}

/-- Every spelling of a name is lowered to what the table holds for the name, if at all,
exactly when a character of it is refused in every spelling, or labels make up the
name and both encodings write its characters alike. -/
theorem spellings_found_iff {t key : QString} {level : ℕ} (h : tldEncode t = .ok (key, level))
    (hlower : ∀ c ∈ chars t, Settled towlower c.toNat) :
    (∀ s r, Spells s (toUtf8 t) → tldDomainToLowercase towlower (0x78 :: s) = some r →
      r = 0x78 :: tableBytes key) ↔
    (∃ c ∈ chars t, IsNonCharacter c) ∨
      (IsDotted (toUtf8 t) ∧ ∀ c ∈ chars t, writtenAlike c = true) := by
  have haccepted := accepted_of_tldEncode h
  have hchar : ∀ c ∈ chars t, ∀ b ∈ utf8Char c, IsAccepted b :=
    fun c hc b hb => haccepted b (List.mem_flatMap.mpr ⟨c, hc, hb⟩)
  have hx : Settled towlower 'x'.toNat := ⟨by decide, fun hhigh => absurd hhigh (by decide)⟩
  have hcs : ∀ c ∈ 'x' :: chars t, Settled towlower c.toNat ∧ c.toNat ≠ 0 := by
    refine List.forall_mem_cons.mpr ⟨⟨hx, by decide⟩, fun c hc => ⟨hlower c hc, ?_⟩⟩
    intro hzero
    have hnul : utf8Char c = [c.toNat.toUInt8] := if_pos (by omega)
    have hbyte := (hchar c hc c.toNat.toUInt8 (by rw [hnul]; exact List.mem_singleton_self _)).1
    rw [hzero] at hbyte
    revert hbyte
    decide
  have hutf8 : utf8 ('x' :: chars t) = 0x78 :: toUtf8 t := rfl
  have hspells : ∀ {s}, Spells s (toUtf8 t) → Spells (0x78 :: s) (utf8 ('x' :: chars t)) :=
    fun hs => Spells.raw (by decide) hs
  have hout : bytesOut (utf8 ('x' :: chars t)) = 0x78 :: bytesOut (toUtf8 t) := rfl
  have hbytes : (∀ b ∈ toUtf8 t, tldByteOut b.toNat = tableByte b) ↔
      ∀ c ∈ chars t, writtenAlike c = true := by
    unfold toUtf8 utf8
    rw [List.forall_mem_flatMap]
    exact forall₂_congr fun c hc => writtenAlike_iff (hchar c hc)
  rw [← hbytes, ← bytesOut_eq_iff h]
  constructor
  · intro hfound
    by_cases hnon : ∃ c ∈ chars t, IsNonCharacter c
    · exact Or.inl hnon
    · right
      have hnone : ∀ c ∈ 'x' :: chars t, ¬IsNonCharacter c := by
        refine List.forall_mem_cons.mpr ⟨by unfold IsNonCharacter; decide, fun c hc hbad => ?_⟩
        exact hnon ⟨c, hc, hbad⟩
      have hpos : 1 ≤ (toUtf8 t).length := by
        obtain ⟨-, hlevel, hlow⟩ := tldEncode_ok h
        have := List.count_le_length (a := (0x2E : UInt8)) (l := toUtf8 t)
        omega
      have hlength := escapeAll_length (toUtf8 t)
      have hlowered : tldDomainToLowercase towlower (0x78 :: escapeAll (toUtf8 t)) =
          some (bytesOut (utf8 ('x' :: chars t))) := by
        unfold tldDomainToLowercase
        rw [if_neg (List.cons_ne_nil _ _)]
        refine lowercaseFrom_isSome _ _ hcs hnone (hspells (spells_escapeAll _))
          (Nat.lt_succ_self _) ?_
        rw [hutf8, List.length_cons, List.length_cons, hlength]
        omega
      have hsame := hfound _ _ (spells_escapeAll (toUtf8 t)) hlowered
      rw [hout] at hsame
      exact (List.cons.inj hsame).2
  · intro hcases s r hs hr
    unfold tldDomainToLowercase at hr
    rw [if_neg (List.cons_ne_nil _ _)] at hr
    obtain ⟨hnone, rfl⟩ := lowercaseFrom_spells _ _ hcs (hspells hs)
      (Nat.lt_succ_self _) hr
    rcases hcases with ⟨c, hc, hbad⟩ | hsame
    · exact absurd hbad (hnone c (List.mem_cons_of_mem _ hc))
    · rw [hout, hsame]

def cyrillicName : QString := [0x2E, 0x0440, 0x0444]

theorem settled_id {t : QString}
    (h : (chars t).all (fun c => ¬(0x41 ≤ c.toNat ∧ c.toNat ≤ 0x5A)) = true) :
    ∀ c ∈ chars t, Settled id c.toNat :=
  fun c hc => ⟨fun _ => of_decide_eq_true (List.all_eq_true.mp h c hc), fun _ => rfl⟩

/-- The digits of the table are in lowercase, those of a domain are not. -/
theorem cyrillic_not_found : ¬∀ (towlower : ℕ → ℕ) (t key : QString) (level : ℕ),
    tldEncode t = .ok (key, level) → (∀ c ∈ chars t, Settled towlower c.toNat) →
    ∀ s r, Spells s (toUtf8 t) → tldDomainToLowercase towlower (0x78 :: s) = some r →
      r = 0x78 :: tableBytes key := by
  intro h
  have hencode : tldEncode cyrillicName = .ok (QString.ascii "%d1%80%d1%84!", 1) := by
    decide
  have hlowered : tldDomainToLowercase id (0x78 :: escapeAll (toUtf8 cyrillicName)) =
      some (ascii "x.%D1%80%D1%84") := by decide
  have htable : tableBytes (QString.ascii "%d1%80%d1%84!") = ascii ".%d1%80%d1%84" := by
    decide
  have hsame := h id cyrillicName _ 1 hencode (settled_id (by decide)) _ _
    (spells_escapeAll (toUtf8 cyrillicName)) hlowered
  rw [htable] at hsame
  revert hsame
  decide

theorem spellings_found_com :
    (∀ s r, Spells s (toUtf8 (QString.ascii ".com")) →
      tldDomainToLowercase id (0x78 :: s) = some r →
        r = 0x78 :: tableBytes (QString.ascii "com!")) ↔
    (∃ c ∈ chars (QString.ascii ".com"), IsNonCharacter c) ∨
      (IsDotted (toUtf8 (QString.ascii ".com")) ∧
        ∀ c ∈ chars (QString.ascii ".com"), writtenAlike c = true) :=
  have hencode : tldEncode (QString.ascii ".com") = .ok (QString.ascii "com!", 1) := by
    decide
  spellings_found_iff hencode (settled_id (by decide))

end Names

end SnapCpp.TldSpelling
