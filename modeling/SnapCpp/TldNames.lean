import SnapCpp.Ensures
import SnapCpp.Runs
import SnapCpp.StringReplace
import SnapCpp.TldParser
import SnapCpp.WordOrder

/-!
The keys of the names that the tool accepts. A name that `verify_data()` lets through
is a sequence of labels, each with a period in front of it, and `tld_encode()` turns it
into the encoded labels from the last one to the first one, each with an exclamation
mark behind it. The level of the name is the number of its labels.
-/
namespace SnapCpp.TldNames

open TldParser QString Utf StringReplace WordOrder Pieces

structure IsLabel (l : QString) : Prop extends IsWord bang l where
  ascii : ∀ c ∈ l, c < 0x80

/-- The text that `tld_encode()` adds for a byte that it accepts. -/
def encoded (b : UInt8) : QString :=
  if isTaken b then [if b = 0x2E then bang else b.toUInt16] else 0x25 :: hexDigits 2 b.toNat

variable {b : UInt8} {t : QString}

theorem encodeByte_ok {tld : QString} {s : QString} (h : encodeByte tld b = .ok s) :
    s = encoded b := by
  unfold encodeByte at h
  unfold encoded
  by_cases hcontrol : b < 0x20
  · rw [if_pos hcontrol] at h
    cases h
  rw [if_neg hcontrol] at h
  by_cases htaken : isTaken b = true
  · rw [if_pos htaken] at h ⊢
    exact (Except.ok.inj h).symm
  · rw [if_neg htaken] at h ⊢
    split_ifs at h
    exact (Except.ok.inj h).symm

theorem mapM_encodeByte_ok {tld : QString} {bytes : List UInt8} {result : List QString}
    (h : bytes.mapM (encodeByte tld) = .ok result) : result = bytes.map encoded := by
  induction bytes generalizing result with
  | nil => exact (Except.ok.inj h).symm
  | cons b rest ih =>
    rw [List.mapM_cons] at h
    obtain ⟨s, hb, h⟩ := bind_eq_ok h
    obtain ⟨r, hrest, h⟩ := bind_eq_ok h
    obtain rfl := Except.ok.inj h
    rw [List.map_cons, encodeByte_ok hb, ih hrest]

theorem hexDigit_bounds {d : ℕ} (h : d < 16) : bang < hexDigit d ∧ hexDigit d < 0x80 := by
  interval_cases d <;> decide

theorem taken_bounds (h : isTaken b = true) :
    b = 0x2E ∨ bang < b.toUInt16 ∧ b.toUInt16 < 0x80 := by
  revert b
  decide +kernel

theorem encoded_dot : encoded 0x2E = [bang] := by decide

theorem mem_encoded (hb : b ≠ 0x2E) {c : UInt16} (h : c ∈ encoded b) :
    bang < c ∧ c < 0x80 := by
  unfold encoded at h
  rw [if_neg hb] at h
  split_ifs at h with htaken
  · obtain rfl := List.mem_singleton.mp h
    exact (taken_bounds htaken).resolve_left hb
  · simp only [hexDigits, List.mem_cons, List.not_mem_nil, or_false] at h
    rcases h with rfl | rfl | rfl
    · decide
    · exact hexDigit_bounds (Nat.mod_lt _ (by decide))
    · exact hexDigit_bounds (Nat.mod_lt _ (by decide))

theorem isLabel_flatMap {l : List UInt8} (hne : l ≠ []) (hdot : 0x2E ∉ l) :
    IsLabel (l.flatMap encoded) := by
  have hbounds : ∀ c ∈ l.flatMap encoded, bang < c ∧ c < 0x80 := by
    intro c hc
    obtain ⟨b, hb, hcb⟩ := List.mem_flatMap.mp hc
    exact mem_encoded (fun heq => hdot (heq ▸ hb)) hcb
  refine ⟨⟨?_, fun c hc => (hbounds c hc).1⟩, fun c hc => (hbounds c hc).2⟩
  obtain ⟨b, rest, rfl⟩ := List.exists_cons_of_ne_nil hne
  rw [List.flatMap_cons]
  refine List.append_ne_nil_of_left_ne_nil ?_ _
  unfold encoded
  by_cases htaken : isTaken b = true <;> simp [htaken]

theorem joinBang_eq_joined {ws : List QString} (h : ws ≠ []) : joinBang ws = joined bang ws := by
  unfold joinBang
  induction ws with
  | nil => exact absurd rfl h
  | cons w ws ih =>
    cases ws with
    | nil => simp [List.intercalate, joined]
    | cons v vs =>
      have htail := ih (List.cons_ne_nil v vs)
      rw [joined_cons, ← htail]
      simp [List.intercalate]

def Dotted (t : QString) : Prop :=
  ∃ labels : List QString, labels ≠ [] ∧ (∀ l ∈ labels, l ≠ [] ∧ dot ∉ l) ∧
    t = labels.flatMap (dot :: ·)

/-- The units that are read again end the label that they belong to. -/
theorem dotted_of_verifyFrom {isLetterOrNumber : UInt16 → Bool} {rev w : QString} {j k : ℕ}
    (hw : dot ∉ w) (hj : rev.length ≤ j) (hlabel : w = [] ↔ rev.length = j) (hne : rev ≠ [])
    (h : verifyFrom isLetterOrNumber t rev j k = .ok ()) : Dotted (rev.reverse ++ w) := by
  induction rev generalizing w j k with
  | nil => exact absurd rfl hne
  | cons c rest ih =>
    have hlength : (c :: rest).length = rest.length + 1 := rfl
    unfold verifyFrom at h
    dsimp only at h
    rw [List.reverse_cons, List.append_assoc, List.singleton_append]
    by_cases hc : c = dot
    · rw [if_pos hc] at h
      split_ifs at h with hlast hend hdash
      have hwne : w ≠ [] := fun heq => hlast (hlabel.mp heq)
      subst hc
      by_cases hrest : rest = []
      · subst hrest
        exact ⟨[w], by simp, by simp [hwne, hw], by simp⟩
      · obtain ⟨labels, hlabels, hall, heq⟩ :=
          ih (w := []) (List.not_mem_nil) le_rfl (by simp) hrest h
        rw [List.append_nil] at heq
        refine ⟨labels ++ [w], by simp, ?_, by simp [heq]⟩
        intro l hl
        rcases List.mem_append.mp hl with hl | hl
        · exact hall l hl
        · obtain rfl := List.mem_singleton.mp hl
          exact ⟨hwne, hw⟩
    · rw [if_neg hc] at h
      have hnext : ∀ k', verifyFrom isLetterOrNumber t rest j k' = .ok () → rest ≠ [] →
          Dotted (rest.reverse ++ c :: w) := by
        intro k' hk' hrest
        refine ih ?_ ?_ ?_ hrest hk'
        · simp only [List.mem_cons, not_or]
          exact ⟨fun heq => hc heq.symm, hw⟩
        · omega
        · exact iff_of_false (List.cons_ne_nil c w) (by omega)
      split_ifs at h with hzero hdash hk hend hletter
      · exact hnext _ h (fun heq => hzero (by rw [heq]; rfl))
      · exact hnext _ h (fun heq => hzero (by rw [heq]; rfl))

theorem dotted_of_verifyName {isLetterOrNumber : UInt16 → Bool} (hne : t ≠ [])
    (h : verifyName isLetterOrNumber t = .ok ()) : Dotted t := by
  have hdotted := dotted_of_verifyFrom (w := []) (List.not_mem_nil) (by simp) (by simp)
    (by simpa using hne) h
  simpa using hdotted

theorem chars_dot_append (s r : QString) : chars (s ++ dot :: r) = chars s ++ '.' :: chars r := by
  have hdot : chars (dot :: r) = '.' :: chars r := by
    cases r with
    | nil => rfl
    | cons v rest => rfl
  induction s using chars.induct with
  | case1 => exact hdot
  | case2 u =>
    have hlow : isLow dot = false := by decide
    have hstep : chars ([u] ++ dot :: r) = unitChar u :: chars (dot :: r) := by
      simp [chars, hlow]
    rw [hstep, hdot]
    rfl
  | case3 u v rest hpair ih =>
    have hstep : chars (u :: v :: rest ++ dot :: r) = pairChar u v :: chars (rest ++ dot :: r) :=
      if_pos hpair
    rw [hstep, ih, chars, if_pos hpair]
    rfl
  | case4 u v rest hpair ih =>
    have hstep : chars (u :: v :: rest ++ dot :: r) = unitChar u :: chars (v :: rest ++ dot :: r) :=
      if_neg hpair
    rw [hstep, ih, chars, if_neg hpair]
    rfl

theorem toUtf8_dot_append (s r : QString) :
    toUtf8 (s ++ dot :: r) = toUtf8 s ++ 0x2E :: toUtf8 r := by
  have hdot : utf8Char '.' = [0x2E] := by decide
  simp [toUtf8, chars_dot_append, utf8, hdot]

theorem toUtf8_flatMap_dot {labels : List QString} :
    toUtf8 (labels.flatMap (dot :: ·)) = (labels.map toUtf8).flatMap (0x2E :: ·) := by
  induction labels with
  | nil => rfl
  | cons l labels ih =>
    have hhead := toUtf8_dot_append [] (l ++ labels.flatMap (dot :: ·))
    rw [List.nil_append] at hhead
    have hrest : toUtf8 (l ++ labels.flatMap (dot :: ·)) =
        toUtf8 l ++ toUtf8 (labels.flatMap (dot :: ·)) := by
      cases labels with
      | nil =>
        have hnil : toUtf8 ([] : QString) = [] := rfl
        simp [hnil]
      | cons l' labels =>
        have hfirst := toUtf8_dot_append [] (l' ++ labels.flatMap (dot :: ·))
        rw [List.nil_append] at hfirst
        rw [List.flatMap_cons, List.cons_append, toUtf8_dot_append, hfirst]
        rfl
    rw [List.flatMap_cons, List.cons_append, hhead, hrest, ih]
    simp [toUtf8, chars, utf8]

theorem dot_notMem_toUtf8 {l : QString} (h : dot ∉ l) : 0x2E ∉ toUtf8 l := by
  intro hmem
  have hascii : IsAscii '.' := by unfold IsAscii; decide
  have hchar : '.' ∈ chars l := (utf8_asciiCompatible.mem_iff hascii (chars l)).mp hmem
  exact h (mem_of_mem_chars ⟨by decide, by decide⟩ hchar)

theorem toUtf8_ne_nil {l : QString} (h : l ≠ []) : toUtf8 l ≠ [] := by
  obtain ⟨c, rest, hc⟩ := List.exists_cons_of_ne_nil (chars_ne_nil h)
  rw [toUtf8, hc]
  unfold utf8 utf8Char
  rw [List.flatMap_cons]
  split_ifs <;> simp

def IsKey (key : QString) (level : ℕ) : Prop :=
  ∃ ls : List QString, (∀ l ∈ ls, IsLabel l) ∧ key = joined bang ls ∧ level = ls.length

theorem count_flatMap_dot {ws : List (List UInt8)} (h : ∀ w ∈ ws, 0x2E ∉ w) :
    (ws.flatMap (0x2E :: ·)).count 0x2E = ws.length := by
  induction ws with
  | nil => rfl
  | cons w ws ih =>
    obtain ⟨hw, hrest⟩ := List.forall_mem_cons.mp h
    rw [List.flatMap_cons, List.count_append, List.count_cons_self, List.count_eq_zero.mpr hw,
      ih hrest, List.length_cons]
    omega

theorem tldEncode_ok {key : QString} {level : ℕ} (h : tldEncode t = .ok (key, level)) :
    key = joinBang ((((toUtf8 t).flatMap encoded).splitOn bang).filter (· ≠ [])).reverse ∧
      level = (toUtf8 t).count 0x2E ∧ 1 ≤ level := by
  unfold tldEncode at h
  dsimp only at h
  obtain ⟨result, hr, h⟩ := bind_eq_ok h
  split_ifs at h with hlow hhigh
  obtain ⟨rfl, rfl⟩ := Prod.mk.inj (Except.ok.inj h)
  rw [mapM_encodeByte_ok hr]
  exact ⟨rfl, rfl, by omega⟩

theorem isKey_of_tldEncode {key : QString} {level : ℕ} (ht : Dotted t)
    (h : tldEncode t = .ok (key, level)) : IsKey key level ∧ 1 ≤ level := by
  obtain ⟨labels, hne, hlabels, rfl⟩ := ht
  obtain ⟨rfl, hlevel, hpos⟩ := tldEncode_ok h
  refine ⟨?_, hpos⟩
  have hbytes : ∀ w ∈ labels.map toUtf8, w ≠ [] ∧ 0x2E ∉ w := by
    intro w hw
    obtain ⟨l, hl, rfl⟩ := List.mem_map.mp hw
    exact ⟨toUtf8_ne_nil (hlabels l hl).1, dot_notMem_toUtf8 (hlabels l hl).2⟩
  have hwords : ∀ w ∈ (labels.map toUtf8).map (·.flatMap encoded), IsLabel w := by
    intro w hw
    obtain ⟨b, hb, rfl⟩ := List.mem_map.mp hw
    exact isLabel_flatMap (hbytes b hb).1 (hbytes b hb).2
  rw [toUtf8_flatMap_dot] at hlevel ⊢
  rw [count_flatMap_dot fun w hw => (hbytes w hw).2, List.length_map] at hlevel
  have hencoded : ((labels.map toUtf8).flatMap (0x2E :: ·)).flatMap encoded =
      [bang].intercalate ([] :: (labels.map toUtf8).map (·.flatMap encoded)) := by
    simp [intercalate_nil_cons, List.flatMap_assoc, List.flatMap_map, encoded_dot]
  generalize hws : (labels.map toUtf8).map (·.flatMap encoded) = ws at hwords hencoded
  have hlength : ws.length = labels.length := by simp [← hws]
  have hsplit : ([bang].intercalate ([] :: ws)).splitOn bang = [] :: ws := by
    refine List.splitOn_intercalate bang ?_ (by simp)
    intro w hw
    rcases List.mem_cons.mp hw with rfl | hw
    · exact List.not_mem_nil
    · exact (hwords w hw).mark_notMem
  have hkept : ([] :: ws).filter (· ≠ []) = ws := by
    rw [List.filter_cons_of_neg (by simp), List.filter_eq_self]
    intro w hw
    simpa using (hwords w hw).ne_nil
  rw [hencoded, hsplit, hkept]
  refine ⟨ws.reverse, fun l hl => hwords l (List.mem_reverse.mp hl), ?_, ?_⟩
  · refine joinBang_eq_joined ?_
    intro hnil
    have hzero : ws.length = 0 := by simpa using congrArg List.length hnil
    rw [hlength] at hzero
    exact hne (List.length_eq_zero_iff.mp hzero)
  · rw [hlevel, List.length_reverse, hlength]

section Entries

/-- What is known of an entry once it is read. -/
structure Entered (key : QString) (info : TldInfo) : Prop where
  inverted : info.fInverted = key
  start : info.fStartOffset = ushrtMax
  stop : info.fEndOffset = ushrtMax
  named : info.fTld ≠ []
  isKey : Dotted info.fTld → IsKey key info.fLevel ∧ 1 ≤ info.fLevel

def AllEntered (map : TldInfoMap) : Prop := ∀ key info, map.find? key = some info → Entered key info

variable {key nm category country : QString} {map map' : TldInfoMap}

theorem AllEntered.insert (h : AllEntered map) {info : TldInfo}
    (hinfo : Entered key info) : AllEntered (map.insert key info) := by
  intro key' info' hfind
  rw [OrderedMap.find?_insert] at hfind
  split_ifs at hfind with hkey
  · obtain rfl := Option.some.inj hfind
    exact hkey ▸ hinfo
  · exact h key' info' hfind

theorem entered_newInfo (category country : QString) {level : ℕ} (hnm : nm ≠ [])
    (h : tldEncode nm = .ok (key, level)) : Entered key (newInfo category country nm key level) :=
  ⟨rfl, rfl, rfl, hnm, fun hdotted => isKey_of_tldEncode hdotted h⟩

theorem isLabel_star : IsLabel (ascii "*") := by
  have hstar : ascii "*" = [0x2A] := rfl
  rw [hstar]
  exact ⟨⟨by simp, List.forall_mem_singleton.mpr (by decide)⟩,
    List.forall_mem_singleton.mpr (by decide)⟩

theorem isKey_subName {level : ℕ} (h : IsKey key level) :
    IsKey (subName key) (level + 1) := by
  obtain ⟨ls, hls, rfl, rfl⟩ := h
  refine ⟨ls ++ [ascii "*"], ?_, ?_, by simp⟩
  · intro l hl
    rcases List.mem_append.mp hl with hl | hl
    · exact hls l hl
    · obtain rfl := List.mem_singleton.mp hl
      exact isLabel_star
  · rw [joined_concat, List.append_assoc]
    rfl

theorem readName_entered (hnm : nm ≠ [])
    (hmap : AllEntered map) (h : readName category country map nm = .ok map') :
    AllEntered map' := by
  unfold readName at h
  obtain ⟨⟨key, level⟩, hcode, h⟩ := bind_eq_ok h
  dsimp only at h
  split_ifs at h
  obtain rfl := Except.ok.inj h
  exact hmap.insert (entered_newInfo category country hnm hcode)

theorem readException_entered {applyTo : QString} (hnm : nm ≠ []) (hmap : AllEntered map)
    (h : readException category country applyTo map nm = .ok map') : AllEntered map' := by
  unfold readException at h
  obtain ⟨⟨key, level⟩, hcode, h⟩ := bind_eq_ok h
  dsimp only at h
  split_ifs at h
  obtain rfl := Except.ok.inj h
  have hnew := entered_newInfo category country hnm hcode
  exact hmap.insert ⟨hnew.inverted, hnew.start, hnew.stop, hnew.named, hnew.isKey⟩

theorem readForbidden_entered {reason : QString} (hnm : nm ≠ []) (hmap : AllEntered map)
    (h : readForbidden category country reason map nm = .ok map') : AllEntered map' := by
  unfold readForbidden at h
  obtain ⟨⟨key, level⟩, hcode, h⟩ := bind_eq_ok h
  dsimp only at h
  have hnew := entered_newInfo category country hnm hcode
  have hforbidden : Entered key
      { newInfo category country nm key level with fReasonName := reason } :=
    ⟨hnew.inverted, hnew.start, hnew.stop, hnew.named, hnew.isKey⟩
  cases hfind : map.find? key with
  | none =>
    rw [hfind] at h
    obtain rfl := Except.ok.inj h
    exact hmap.insert hforbidden
  | some old =>
    rw [hfind] at h
    dsimp only at h
    split_ifs at h
    obtain rfl := Except.ok.inj h
    have hold := hmap key old hfind
    refine (hmap.insert ?_).insert hforbidden
    refine ⟨rfl, hold.start, hold.stop, hold.named, ?_⟩
    intro hdotted
    obtain ⟨hkey, -⟩ := hold.isKey hdotted
    exact ⟨isKey_subName hkey, Nat.le_add_left 1 old.fLevel⟩

theorem ne_nil_of_mem_nameList {text : QString} (h : nm ∈ nameList text) : nm ≠ [] := by
  simpa using (List.mem_filter.mp h).2

theorem ne_nil_of_mem_childNames {children : List Node} (h : nm ∈ childNames children) :
    nm ≠ [] := by
  obtain ⟨node, -, hnm⟩ := List.mem_flatMap.mp h
  cases node with
  | characterData data => exact ne_nil_of_mem_nameList hnm
  | comment => cases hnm
  | element tagName attributes inner => cases hnm

theorem readSection_entered {node : Node}
    (hmap : AllEntered map) (h : readSection category country map node = .ok map') :
    AllEntered map' := by
  cases node with
  | comment =>
    obtain rfl := Except.ok.inj h
    exact hmap
  | characterData data =>
    exact foldlM_invariant AllEntered (fun nm hnm _ _ hs hstep =>
      readName_entered (ne_nil_of_mem_nameList hnm) hs hstep) hmap h
  | element tagName attributes children =>
    simp only [readSection] at h
    split_ifs at h
    · obtain ⟨r, hcode, h⟩ := bind_eq_ok h
      exact foldlM_invariant AllEntered (fun nm hnm _ _ hs hstep =>
        readException_entered (ne_nil_of_mem_childNames hnm) hs hstep) hmap h
    · exact foldlM_invariant AllEntered (fun nm hnm _ _ hs hstep =>
        readForbidden_entered (ne_nil_of_mem_childNames hnm) hs hstep) hmap h

theorem readSections_entered {children : List Node} (hmap : AllEntered map)
    (h : children.foldlM (readSection category country) map = .ok map') : AllEntered map' :=
  foldlM_invariant AllEntered (fun _ _ _ _ hs hstep => readSection_entered hs hstep) hmap h

theorem readArea_entered {state state' : TldInfoMap × CountryMap} {node : Node}
    (hmap : AllEntered state.1) (h : readArea state node = .ok state') : AllEntered state'.1 := by
  cases node with
  | comment =>
    obtain rfl := Except.ok.inj h
    exact hmap
  | characterData data =>
    obtain rfl := Except.ok.inj h
    exact hmap
  | element tagName attributes children =>
    simp only [readArea] at h
    split_ifs at h
    · cases hs : children.foldlM (readSection (attributeOf attributes (ascii "category")
          (ascii "country")) (attributeOf attributes (ascii "country") (ascii "undefined"))) state.1
        with
      | error e =>
        rw [hs] at h
        cases h
      | ok map' =>
        rw [hs] at h
        obtain rfl := Except.ok.inj h
        exact readSections_entered hmap hs
    · cases hs : children.foldlM (readSection (attributeOf attributes (ascii "category")
          (ascii "country")) []) state.1 with
      | error e =>
        rw [hs] at h
        cases h
      | ok map' =>
        rw [hs] at h
        obtain rfl := Except.ok.inj h
        exact readSections_entered hmap hs

/-- Whatever the document is, the entries are filed under their keys. -/
theorem readTlds_entered {doc : List Node} {countries : CountryMap}
    (h : readTlds doc = .ok (map, countries)) : AllEntered map := by
  unfold readTlds at h
  split_ifs at h
  dsimp only at h
  split at h
  · cases h
  · split_ifs at h
    refine foldlM_invariant (fun state => AllEntered state.1)
      (fun _ _ _ _ hs hstep => readArea_entered hs hstep) ?_ h
    intro key info hfind
    cases hfind

/-- What is known of an entry once it is verified. -/
structure Placed (key : QString) (info : TldInfo) : Prop where
  inverted : info.fInverted = key
  start : info.fStartOffset = ushrtMax
  stop : info.fEndOffset = ushrtMax
  isKey : IsKey key info.fLevel
  level : 1 ≤ info.fLevel

def AllPlaced (map : TldInfoMap) : Prop := ∀ key info, map.find? key = some info → Placed key info

variable {isLetterOrNumber : UInt16 → Bool}

theorem placed_of_verifyInfo {info info' : TldInfo} (h : Entered key info)
    (hverify : verifyInfo isLetterOrNumber info = .ok info') : Placed key info' := by
  obtain ⟨_, hname, hverify⟩ := bind_eq_ok hverify
  obtain ⟨category, -, hverify⟩ := bind_eq_ok hverify
  obtain ⟨reason, -, hverify⟩ := bind_eq_ok hverify
  obtain rfl := Except.ok.inj hverify
  obtain ⟨hkey, hlevel⟩ := h.isKey (dotted_of_verifyName h.named hname)
  exact ⟨h.inverted, h.start, h.stop, hkey, hlevel⟩

theorem verifyEntries_placed {keys : List QString} (hnodup : keys.Nodup)
    (hmap : ∀ key info, map.find? key = some info →
      if key ∈ keys then Entered key info else Placed key info)
    (h : keys.foldlM (verifyEntry isLetterOrNumber) map = .ok map') : AllPlaced map' := by
  induction keys generalizing map with
  | nil =>
    obtain rfl := Except.ok.inj h
    intro key info hfind
    simpa using hmap key info hfind
  | cons first rest ih =>
    obtain ⟨hfirst, hrest⟩ := List.nodup_cons.mp hnodup
    rw [List.foldlM_cons] at h
    obtain ⟨next, hstep, h⟩ := bind_eq_ok h
    refine ih hrest ?_ h
    intro key info hfind
    unfold verifyEntry at hstep
    cases hold : map.find? first with
    | none =>
      rw [hold] at hstep
      obtain rfl := Except.ok.inj hstep
      have hkey : key ≠ first := by
        rintro rfl
        rw [hold] at hfind
        cases hfind
      simpa [hkey] using hmap key info hfind
    | some old =>
      rw [hold] at hstep
      obtain ⟨info', hinfo, hstep⟩ := bind_eq_ok hstep
      obtain rfl := Except.ok.inj hstep
      rw [OrderedMap.find?_insert] at hfind
      split_ifs at hfind with hkey
      · subst hkey
        obtain rfl := Option.some.inj hfind
        have hentered : Entered key old := by simpa using hmap key old hold
        rw [if_neg hfirst]
        exact placed_of_verifyInfo hentered hinfo
      · simpa [hkey] using hmap key info hfind

theorem verifyData_placed (hmap : AllEntered map)
    (h : verifyData isLetterOrNumber map = .ok map') : AllPlaced map' := by
  refine verifyEntries_placed (OrderedMap.keys_nodup map) ?_ h
  intro key info hfind
  have hmem : key ∈ map.keys := by
    rw [← OrderedMap.has_iff_mem_keys, OrderedMap.Has, hfind]
    simp
  rw [if_pos hmem]
  exact hmap key info hfind

end Entries

end SnapCpp.TldNames
