import SnapCpp.UriSyntax

/-!
The place of the TLD that `tld_check_uri()` returns. `tld()` finds it in the decoded host,
and it is added to the place of the host in the URI, where the bytes in front of the TLD may
be encoded. It is the place of the TLD exactly when none of them is.
-/
namespace SnapCpp.UriTld

open TldParser TldEmails TldUri UriSyntax

/-- `tld()` finds a TLD at `k` in the decoded host. -/
def Found (t : Written) (u : Uri) (k : ℕ) : Prop :=
  ∃ info, tld t (decodeDomain u.host) = some (.success, info) ∧ info.fTld = some k

def before (u : Uri) : Bytes := u.protocol ++ 0x3A :: 0x2F :: 0x2F :: userText u.user

def PointsAt (u : Uri) (suffix : Bytes) (place : ℕ) : Prop :=
  ∃ front back, u.host = front ++ back ∧ back ≠ [] ∧
    place = (before u).length + front.length ∧ decodeDomain back = suffix

def AsPromised (t : Written) (protocols : Bytes) (flags : Int32) (uri : Bytes) : Prop :=
  ∀ info, tldCheckUri t protocols flags uri = some (.success, info) →
    ∃ place : ℕ, info.fTld = some place ∧ info.fOffset = place ∧
      ∀ u k, u.text = uri → Sound protocols flags u → Found t u k →
        PointsAt u ((decodeDomain u.host).drop k) place

def Unencoded (t : Written) (protocols : Bytes) (flags : Int32) (uri : Bytes) : Prop :=
  ∀ u k, u.text = uri → Passing protocols flags u → Found t u k → 0x25 ∉ u.host.take k

section Decoding

variable {plain : UInt8 → Prop} {escape : UInt8 → UInt8 → Prop} {host front back a : Bytes} {k : ℕ}

theorem decodeDomain_escape (d e : UInt8) (s : Bytes) : decodeDomain (0x25 :: d :: e :: s) =
    (h2d d * 16 + h2d e).toUInt8 :: decodeDomain s := rfl

theorem decodeDomain_plain {c : UInt8} (hc : c ≠ 0x25) (s : Bytes) :
    decodeDomain (c :: s) = c :: decodeDomain s := by
  match s with
  | [] => simp [decodeDomain]
  | [_] => simp [decodeDomain]
  | _ :: _ :: _ =>
    rw [decodeDomain]
    intro _ _ _ h
    exact absurd h hc

theorem decodeDomain_append (ha : Encoded plain escape a) (back : Bytes) :
    decodeDomain (a ++ back) = decodeDomain a ++ decodeDomain back := by
  induction ha with
  | nil => rfl
  | plain hne _ _ ih =>
    rw [List.cons_append, decodeDomain_plain hne, decodeDomain_plain hne, ih, List.cons_append]
  | @escape d e s _ _ ih =>
    show decodeDomain (0x25 :: d :: e :: (s ++ back)) = _
    rw [decodeDomain_escape, decodeDomain_escape, ih, List.cons_append]

theorem decodeDomain_notMem (ha : 0x25 ∉ a) (back : Bytes) :
    decodeDomain (a ++ back) = a ++ decodeDomain back := by
  induction a with
  | nil => rfl
  | cons c a ih =>
    rw [List.mem_cons, not_or] at ha
    rw [List.cons_append, decodeDomain_plain (Ne.symm ha.1), ih ha.2, List.cons_append]

theorem length_decodeDomain_le (ha : Encoded plain escape a) :
    (decodeDomain a).length ≤ a.length := by
  induction ha with
  | nil => exact le_rfl
  | plain hne _ _ ih =>
    rw [decodeDomain_plain hne, List.length_cons, List.length_cons]
    omega
  | escape _ _ ih =>
    rw [decodeDomain_escape, List.length_cons, List.length_cons, List.length_cons, List.length_cons]
    omega

theorem length_decodeDomain_lt (ha : Encoded plain escape a) (hmem : 0x25 ∈ a) :
    (decodeDomain a).length < a.length := by
  induction ha with
  | nil => cases hmem
  | plain hne _ _ ih =>
    rw [decodeDomain_plain hne, List.length_cons, List.length_cons]
    have hlt := ih (List.mem_of_ne_of_mem (Ne.symm hne) hmem)
    omega
  | escape _ h _ =>
    have hle := length_decodeDomain_le h
    rw [decodeDomain_escape, List.length_cons, List.length_cons, List.length_cons, List.length_cons]
    omega

theorem exists_front (h : Encoded plain escape host) (hk : k ≤ (decodeDomain host).length) :
    ∃ front back, host = front ++ back ∧ Encoded plain escape front ∧
      (decodeDomain front).length = k := by
  induction h generalizing k with
  | nil => exact ⟨[], [], rfl, .nil, (Nat.le_zero.mp hk).symm⟩
  | @plain c s hne hc h ih =>
    cases k with
    | zero => exact ⟨[], c :: s, rfl, .nil, rfl⟩
    | succ k =>
      rw [decodeDomain_plain hne, List.length_cons] at hk
      obtain ⟨front, back, rfl, hfront, hlength⟩ := ih (Nat.le_of_succ_le_succ hk)
      refine ⟨c :: front, back, rfl, .plain hne hc hfront, ?_⟩
      rw [decodeDomain_plain hne, List.length_cons, hlength]
  | @escape d e s hde h ih =>
    cases k with
    | zero => exact ⟨[], 0x25 :: d :: e :: s, rfl, .nil, rfl⟩
    | succ k =>
      rw [decodeDomain_escape, List.length_cons] at hk
      obtain ⟨front, back, rfl, hfront, hlength⟩ := ih (Nat.le_of_succ_le_succ hk)
      refine ⟨0x25 :: d :: e :: front, back, rfl, .escape hde hfront, ?_⟩
      rw [decodeDomain_escape, List.length_cons, hlength]

theorem length_decodeDomain_drop (hdigits : ∀ d e, escape d e → d ≠ 0x25 ∧ e ≠ 0x25)
    (hfront : Encoded plain escape front) (hk : k < front.length) (back : Bytes) :
    (decodeDomain back).length < (decodeDomain (front.drop k ++ back)).length := by
  have hwhole : ∀ {s : Bytes}, Encoded plain escape s →
      (decodeDomain back).length ≤ (decodeDomain (s ++ back)).length := by
    intro s hs
    rw [decodeDomain_append hs, List.length_append]
    omega
  induction hfront generalizing k with
  | nil => cases hk
  | @plain c s hne hc h ih =>
    cases k with
    | zero =>
      rw [List.drop_zero, List.cons_append, decodeDomain_plain hne]
      exact Nat.lt_succ_of_le (hwhole h)
    | succ k => exact ih (Nat.lt_of_succ_lt_succ hk)
  | @escape d e s hde h ih =>
    obtain ⟨hd, he⟩ := hdigits d e hde
    have hle := hwhole h
    match k with
    | 0 =>
      show _ < (decodeDomain (0x25 :: d :: e :: (s ++ back))).length
      rw [decodeDomain_escape]
      exact Nat.lt_succ_of_le hle
    | 1 =>
      show _ < (decodeDomain (d :: e :: (s ++ back))).length
      rw [decodeDomain_plain hd, decodeDomain_plain he]
      exact Nat.lt_succ_of_le (Nat.le_succ_of_le hle)
    | 2 =>
      show _ < (decodeDomain (e :: (s ++ back))).length
      rw [decodeDomain_plain he]
      exact Nat.lt_succ_of_le hle
    | k + 3 => exact ih (by simpa using hk)

/-- A place of the decoded bytes is the place in the encoded ones when none in front of it is
encoded. -/
theorem decodeDomain_drop_iff (hdigits : ∀ d e, escape d e → d ≠ 0x25 ∧ e ≠ 0x25)
    (h : Encoded plain escape host) (hk : k ≤ (decodeDomain host).length) :
    decodeDomain (host.drop k) = (decodeDomain host).drop k ↔ 0x25 ∉ host.take k := by
  constructor
  · intro hdrop hmem
    obtain ⟨front, back, rfl, hfront, hlength⟩ := exists_front h hk
    have hlt : k < front.length := by
      by_contra hge
      have hle := length_decodeDomain_le hfront
      have hsame : front.length = k := by omega
      rw [← hsame, List.take_left] at hmem
      have hfewer := length_decodeDomain_lt hfront hmem
      omega
    have hlonger := length_decodeDomain_drop hdigits hfront hlt back
    rw [List.drop_append_of_le_length hlt.le, decodeDomain_append hfront, ← hlength, List.drop_left,
      hlength] at hdrop
    rw [hdrop] at hlonger
    exact absurd hlonger (lt_irrefl _)
  · intro hnone
    have hlength : (host.take k).length = k := by
      rw [List.length_take]
      exact min_eq_left (hk.trans (length_decodeDomain_le h))
    have hsplit := decodeDomain_notMem hnone (host.drop k)
    rw [List.take_append_drop] at hsplit
    rw [hsplit, List.drop_left' hlength]

end Decoding

section Places

variable {t : Written} {uri : Bytes} {levelPtr ptrs : List ℕ} {k : ℕ}

theorem levelPtrs_lt {tldMaxLevel place : ℕ}
    (h : levelPtrs tldMaxLevel uri place levelPtr = some ptrs) (hk : k ∈ ptrs) :
    k ∈ levelPtr ∨ k < place + uri.length := by
  fun_induction levelPtrs tldMaxLevel uri place levelPtr with
  | case1 place levelPtr =>
    obtain rfl := Option.some.inj h
    exact .inl hk
  | case2 => cases h
  | case3 s place levelPtr next _ ih =>
    rw [List.length_cons]
    rcases ih h with hmem | hlt
    · rcases List.mem_append.mp hmem with hmem | hmem
      · left
        split_ifs at hmem
        · exact List.mem_of_mem_tail hmem
        · exact hmem
      · right
        rw [List.mem_singleton.mp hmem]
        omega
    · right
      omega
  | case4 c s place levelPtr _ ih =>
    rw [List.length_cons]
    rcases ih h with hmem | hlt
    · exact .inl hmem
    · right
      omega

theorem tld_place {result : TldResult} {info : Info} (h : tld t uri = some (result, info)) :
    (result = .success → info.fTld ≠ none) ∧
      ∀ k, info.fTld = some k → k < uri.length ∧ info.fOffset = k := by
  have hnothing : ∀ {early : TldResult}, early ≠ .success → some (early, ({} : Info)) =
      some (result, info) → (result = .success → info.fTld ≠ none) ∧
        ∀ k, info.fTld = some k → k < uri.length ∧ info.fOffset = k := by
    rintro early hne ⟨⟩
    exact ⟨fun h => absurd h hne, fun k h => by cases h⟩
  unfold tld at h
  split_ifs at h with hnil
  · exact hnothing (by simp) h
  · split at h
    · exact hnothing (by simp) h
    · exact hnothing (by simp) h
    · next ptrs _ hptrs =>
      dsimp only at h
      split at h
      · exact hnothing (by simp) h
      · next r _ =>
        simp only [Option.bind_eq_bind, Option.bind_eq_some_iff] at h
        obtain ⟨⟨p, level, status, outcome⟩, -, row, -, hinfo⟩ := h
        split_ifs at hinfo with hlevel
        · obtain ⟨place, hplace, hreturn⟩ := Option.bind_eq_some_iff.mp hinfo
          cases hreturn
          have hmem := List.mem_of_getElem? hplace
          have hlt := (levelPtrs_lt hptrs hmem).resolve_left (by simp)
          refine ⟨fun _ => by simp, ?_⟩
          rintro k ⟨⟩
          exact ⟨by omega, rfl⟩
        · cases hinfo

theorem checkDomain_ne_success (flags : Int32) (p s : Bytes) :
    checkDomain flags p s ≠ .returned .success := by
  rw [checkDomain]
  split
  · simp
  · dsimp only
    split_ifs <;> simp

theorem checkSyntax_ne_success (protocols : Bytes) (flags : Int32) (p : Bytes) :
    checkSyntax protocols flags p ≠ .returned .success := by
  rw [checkSyntax]
  split_ifs
  · simp
  · split
    · simp
    · split_ifs
      · split
        · simp
        · exact checkDomain_ne_success flags p _
        · simp
      · simp

/-- What `tld_check_uri()` returns on success. -/
theorem tldCheckUri_success {protocols : Bytes} {flags : Int32} {info : Info}
    (h : tldCheckUri t protocols flags uri = some (.success, info)) :
    ∃ u : Uri, u.text = uri ∧ Passing protocols flags u ∧ ∃ k, Found t u k ∧
      k < (decodeDomain u.host).length ∧ info.fTld = some ((before u).length + k) ∧
      info.fOffset = ((before u).length + k : ℕ) := by
  unfold tldCheckUri at h
  cases hcheck : checkSyntax protocols flags uri with
  | outside =>
    rw [hcheck] at h
    cases h
  | returned result =>
    rw [hcheck] at h
    cases h
    exact absurd hcheck (checkSyntax_ne_success protocols flags uri)
  | passed start host =>
    rw [hcheck] at h
    obtain ⟨u, htext, hpassing, rfl, rfl⟩ := checkSyntax_passed_iff.mp hcheck
    simp only [Option.bind_eq_bind, Option.bind_eq_some_iff] at h
    obtain ⟨⟨result, found⟩, htld, hreturn⟩ := h
    obtain ⟨hsuccess, hplace⟩ := tld_place htld
    dsimp only at hreturn
    cases hk : found.fTld with
    | none =>
      rw [hk] at hreturn
      cases hreturn
      exact absurd hk (hsuccess rfl)
    | some k =>
      obtain ⟨hlt, hoffset⟩ := hplace k hk
      rw [hk] at hreturn
      cases hreturn
      refine ⟨u, htext, hpassing, k, ⟨found, htld, hk⟩, hlt, ?_, ?_⟩
      · rw [hoffset]
        rfl
      · rw [hoffset]
        rfl

end Places

section Place

variable {t : Written} {protocols : Bytes} {flags : Int32} {u : Uri} {uri : Bytes} {k : ℕ}

theorem Found.inj {k' : ℕ} (h : Found t u k) (h' : Found t u k') : k = k' := by
  obtain ⟨info, htld, hk⟩ := h
  obtain ⟨info', htld', hk'⟩ := h'
  rw [htld] at htld'
  cases htld'
  rw [hk] at hk'
  exact Option.some.inj hk'

theorem host_encoded (h : Shaped flags u) :
    Encoded (PlainDomain flags) (Escape flags true) u.host := by
  have hauthority := h.authority
  have hright : Encoded (PlainDomain flags) (Escape flags true) (u.host ++ behind 0x3A u.port) := by
    unfold Uri.authority at hauthority
    cases huser : u.user with
    | none =>
      rw [huser] at hauthority
      exact hauthority
    | some user =>
      rw [huser, userText_at] at hauthority
      exact ((hauthority.split fun d e => escape_at).2.tail (by decide)).2
  cases hport : u.port with
  | none =>
    rw [hport, behind, List.append_nil] at hright
    exact hright
  | some digits =>
    rw [hport] at hright
    exact (hright.split fun d e => escape_ne (.inr (by decide))).1

theorem pointsAt_iff {suffix : Bytes} (hk : k < u.host.length) :
    PointsAt u suffix ((before u).length + k) ↔ decodeDomain (u.host.drop k) = suffix := by
  constructor
  · rintro ⟨front, back, hhost, -, hplace, hdecoded⟩
    have hlength : front.length = k := by omega
    rw [hhost, List.drop_left' hlength]
    exact hdecoded
  · intro hdecoded
    refine ⟨u.host.take k, u.host.drop k, (List.take_append_drop k _).symm, ?_, ?_, hdecoded⟩
    · rw [Ne, List.drop_eq_nil_iff]
      omega
    · rw [List.length_take, min_eq_left hk.le]

/-- The checks pass and `tld()` finds a TLD. -/
theorem tldCheckUri_found (htext : u.text = uri) (hpassing : Passing protocols flags u)
    (hfound : Found t u k) : k < (decodeDomain u.host).length ∧
      ∃ info, tldCheckUri t protocols flags uri = some (.success, info) ∧
        info.fTld = some ((before u).length + k) := by
  obtain ⟨found, htld, hk⟩ := hfound
  obtain ⟨hlt, hoffset⟩ := (tld_place htld).2 k hk
  have hcheck : checkSyntax protocols flags uri = .passed (before u).length u.host :=
    checkSyntax_passed_iff.mpr ⟨u, htext, hpassing, rfl, rfl⟩
  refine ⟨hlt, { found with
    fTld := some ((before u).length + found.fOffset.toNat)
    fOffset := ((before u).length + found.fOffset.toNat : ℕ) }, ?_, ?_⟩
  · rw [tldCheckUri, hcheck]
    dsimp only
    rw [htld]
    dsimp only [Option.bind_eq_bind, Option.bind_some]
    rw [hk]
    rfl
  · rw [hoffset]
    rfl

theorem place_of_passing (hpassing : Passing protocols flags u)
    (hk : k < (decodeDomain u.host).length) :
    PointsAt u ((decodeDomain u.host).drop k) ((before u).length + k) ↔
      0x25 ∉ u.host.take k := by
  have hencoded := host_encoded hpassing.shaped
  have hdigits : ∀ d e, Escape flags true d e → d ≠ 0x25 ∧ e ≠ 0x25 := by
    intro d e hde
    obtain ⟨hd, he⟩ := @escape_ne flags true 0x25 d e (.inl (by decide)) hde
    exact ⟨hd.symm, he.symm⟩
  rw [pointsAt_iff (hk.trans_le (length_decodeDomain_le hencoded)),
    decodeDomain_drop_iff hdigits hencoded hk.le]

/-- `tld_check_uri()` points at the TLD exactly when nothing in front of it is encoded. -/
theorem place_iff (t : Written) (protocols : Bytes) (flags : Int32) (uri : Bytes) :
    AsPromised t protocols flags uri ↔ Unencoded t protocols flags uri := by
  constructor
  · intro hpromised u k htext hpassing hfound
    obtain ⟨hlt, info, hsuccess, htld⟩ := tldCheckUri_found htext hpassing hfound
    obtain ⟨place, hplace, -, hpoints⟩ := hpromised info hsuccess
    rw [htld] at hplace
    obtain rfl := Option.some.inj hplace
    exact (place_of_passing hpassing hlt).mp
      (hpoints u k htext (passing_iff.mp hpassing).1 hfound)
  · intro hunencoded info hsuccess
    obtain ⟨u, htext, hpassing, k, hfound, hlt, htld, hoffset⟩ := tldCheckUri_success hsuccess
    refine ⟨_, htld, hoffset, fun v k' hvtext hsound hvfound => ?_⟩
    obtain rfl := sound_inj hsound (passing_iff.mp hpassing).1 (hvtext.trans htext.symm)
    obtain rfl := hvfound.inj hfound
    exact (place_of_passing hpassing hlt).mpr (hunencoded v k' htext hpassing hfound)

/-- A table with `com` only. -/
def comTable : Written := ⟨[TldLookup.line [0x63, 0x6F, 0x6D]], 0, 1, 1⟩

theorem found_com : tld comTable [0x61, 0x2E, 0x63, 0x6F, 0x6D] =
    some (.success, ⟨some .country, some .valid, some 0, some 1, 1⟩) := by
  have hsearch : TldLookup.search comTable.tldDescriptions comTable.tldStartOffset
      comTable.tldEndOffset (List.drop (List.getD [1] (List.length [1] - 1) 0 + 1)
        [0x61, 0x2E, 0x63, 0x6F, 0x6D]) = some 0 := by
    change TldLookup.search comTable.tldDescriptions 0 1 [0x63, 0x6F, 0x6D] = some 0
    rw [TldLookup.search, Bisection.bisect_of_zero (by decide) (by decide)]
  have hbelow : find comTable [0x61, 0x2E, 0x63, 0x6F, 0x6D] [1] 0 = (0, 0) := by
    show ((searchBelow comTable 0 [0x61]).getD 0, 0) = (0, 0)
    have hnone : searchBelow comTable 0 [0x61] = none := Bisection.bisect_of_le le_rfl
    rw [hnone]
    rfl
  have hlevels : levelPtrs comTable.tldMaxLevel [0x61, 0x2E, 0x63, 0x6F, 0x6D] 0 [] = some [1] := by
    decide
  rw [tld, if_neg (by simp), hlevels]
  dsimp only
  rw [hsearch]
  dsimp only
  rw [hbelow]
  rfl

/-- The protocol `http` and the host `%61.com`. -/
theorem place_in_escape : ¬AsPromised comTable [0x68, 0x74, 0x74, 0x70] 0
    [0x68, 0x74, 0x74, 0x70, 0x3A, 0x2F, 0x2F, 0x25, 0x36, 0x31, 0x2E, 0x63, 0x6F, 0x6D] := by
  intro hpromised
  have hcheck : checkSyntax [0x68, 0x74, 0x74, 0x70] 0
      [0x68, 0x74, 0x74, 0x70, 0x3A, 0x2F, 0x2F, 0x25, 0x36, 0x31, 0x2E, 0x63, 0x6F, 0x6D] =
        .passed 7 [0x25, 0x36, 0x31, 0x2E, 0x63, 0x6F, 0x6D] := by decide
  obtain ⟨u, htext, hpassing, hhost, -⟩ := checkSyntax_passed_iff.mp hcheck
  have hfound : Found comTable u 1 := ⟨_, by rw [← hhost]; exact found_com, rfl⟩
  obtain ⟨hlt, info, hsuccess, htld⟩ := tldCheckUri_found htext hpassing hfound
  obtain ⟨place, hplace, -, hpoints⟩ := hpromised info hsuccess
  rw [htld] at hplace
  obtain rfl := Option.some.inj hplace
  have hplain := (place_of_passing hpassing hlt).mp
    (hpoints u 1 htext (passing_iff.mp hpassing).1 hfound)
  rw [← hhost] at hplain
  exact hplain (by decide)

end Place

end SnapCpp.UriTld
