import SnapCpp.TldNames

/-!
The table that `output_tlds()` writes. Its entries are in the order of their levels,
the deepest one first, and within a level in the order of their keys. The entries below
one parent stand next to each other, because their keys start with its key, and they
are in the order of `cmp()`, because the exclamation mark is below all bytes of a label.
-/
namespace SnapCpp.TldTable

open TldParser TldNames QString Utf WordOrder

section Loop

def isAt (m : TldInfoMap) (level : ℕ) (key : QString) : Bool :=
  (m.find? key).any fun info => info.fLevel = level

def atLevel (m : TldInfoMap) (level : ℕ) : List QString := m.keys.filter (isAt m level)

theorem isAt_iff {m : TldInfoMap} {level : ℕ} {key : QString} :
    isAt m level key = true ↔ ∃ info, m.find? key = some info ∧ info.fLevel = level := by
  unfold isAt
  cases m.find? key <;> simp

variable (m : TldInfoMap) {σ ε : Type} (keysOf : σ → List QString)
  (f : ℕ → σ → QString → Except ε σ) (Inv : List QString → σ → Prop)

theorem keys_loop (hstep : ∀ done s level key, Inv done s → key ∉ done → isAt m level key = true →
      ∃ s', f level s key = .ok s' ∧ Inv (done ++ [key]) s')
    (hskip : ∀ done s level key, Inv done s → ¬isAt m level key = true → f level s key = .ok s)
    (level : ℕ) {ks done : List QString} {s : σ} (hs : Inv done s) (hks : ks.Nodup)
    (hfresh : ∀ key ∈ ks.filter (isAt m level), key ∉ done) :
    ∃ s', ks.foldlM (f level) s = .ok s' ∧ Inv (done ++ ks.filter (isAt m level)) s' := by
  induction ks generalizing done s with
  | nil => exact ⟨s, rfl, by simpa using hs⟩
  | cons key ks ih =>
    obtain ⟨hnotin, hrest⟩ := List.nodup_cons.mp hks
    rw [List.foldlM_cons]
    by_cases hat : isAt m level key = true
    · rw [List.filter_cons_of_pos hat] at hfresh ⊢
      obtain ⟨hkey, hothers⟩ := List.forall_mem_cons.mp hfresh
      obtain ⟨s₁, hs₁, hinv₁⟩ := hstep done s level key hs hkey hat
      rw [hs₁]
      have hnew : ∀ k ∈ ks.filter (isAt m level), k ∉ done ++ [key] := by
        intro k hk hmem
        rcases List.mem_append.mp hmem with hold | hlast
        · exact hothers k hk hold
        · obtain rfl := List.mem_singleton.mp hlast
          exact hnotin (List.mem_of_mem_filter hk)
      obtain ⟨s', hs', hinv'⟩ := ih hinv₁ hrest hnew
      exact ⟨s', hs', by simpa using hinv'⟩
    · rw [List.filter_cons_of_neg hat] at hfresh ⊢
      rw [hskip done s level key hs hat]
      exact ih hs hrest hfresh

theorem levels_loop (hkeys : ∀ done s, Inv done s → keysOf s = m.keys)
    (hstep : ∀ done s level key, Inv done s → key ∉ done → isAt m level key = true →
      ∃ s', f level s key = .ok s' ∧ Inv (done ++ [key]) s')
    (hskip : ∀ done s level key, Inv done s → ¬isAt m level key = true → f level s key = .ok s)
    {ls : List ℕ} {done : List QString} {s : σ} (hs : Inv done s) (hls : ls.Nodup)
    (hfresh : ∀ l ∈ ls, ∀ key ∈ atLevel m l, key ∉ done) :
    ∃ s', ls.foldlM (fun s level => (keysOf s).foldlM (f level) s) s = .ok s' ∧
      Inv (done ++ ls.flatMap (atLevel m)) s' := by
  induction ls generalizing done s with
  | nil => exact ⟨s, rfl, by simpa using hs⟩
  | cons level ls ih =>
    obtain ⟨hnotin, hrest⟩ := List.nodup_cons.mp hls
    obtain ⟨hhead, hothers⟩ := List.forall_mem_cons.mp hfresh
    rw [List.foldlM_cons, hkeys done s hs]
    obtain ⟨s₁, hs₁, hinv₁⟩ := keys_loop m f Inv hstep hskip level hs m.keys_nodup hhead
    rw [hs₁]
    have hnew : ∀ l ∈ ls, ∀ key ∈ atLevel m l, key ∉ done ++ atLevel m level := by
      intro l hl key hkey hmem
      rcases List.mem_append.mp hmem with hold | hlast
      · exact hothers l hl key hkey hold
      · obtain ⟨info, hinfo, hlevel⟩ := isAt_iff.mp (List.mem_filter.mp hkey).2
        obtain ⟨info', hinfo', hlevel'⟩ := isAt_iff.mp (List.mem_filter.mp hlast).2
        obtain rfl := Option.some.inj (hinfo.symm.trans hinfo')
        exact hnotin (hlevel'.symm.trans hlevel ▸ hl)
    obtain ⟨s', hs', hinv'⟩ := ih hinv₁ hrest hnew
    refine ⟨s', hs', ?_⟩
    rw [List.flatMap_cons, ← List.append_assoc]
    exact hinv'

theorem levels_nodup (n : ℕ) : (levels n).Nodup := by
  unfold levels
  refine List.Nodup.map ?_ (List.nodup_reverse.mpr List.nodup_range)
  intro a b h
  simpa using h

theorem mem_levels {n l : ℕ} : l ∈ levels n ↔ 1 ≤ l ∧ l ≤ n := by
  simp only [levels, List.mem_map, List.mem_reverse, List.mem_range]
  constructor
  · rintro ⟨a, ha, rfl⟩
    omega
  · intro h
    exact ⟨l - 1, by omega, by omega⟩

end Loop

section Offsets

def offsetAs (done : List QString) (key : QString) (info : TldInfo) : TldInfo :=
  { info with fOffset := if key ∈ done then done.idxOf key else info.fOffset }

structure Offsets (m : TldInfoMap) (done : List QString) (state : TldInfoMap × ℕ) : Prop where
  count : state.2 = done.length
  find : ∀ key, state.1.find? key = (m.find? key).map (offsetAs done key)

variable {m : TldInfoMap} {done : List QString} {state : TldInfoMap × ℕ} {level n : ℕ}
  {key : QString}

theorem Offsets.keys (h : Offsets m done state) : state.1.keys = m.keys := by
  refine OrderedMap.keys_eq_of_has _ _ fun key => ?_
  unfold OrderedMap.Has
  rw [h.find]
  simp

theorem Offsets.skip (h : Offsets m done state) (hat : ¬isAt m level key = true) :
    assignOffset level state key = state := by
  unfold assignOffset
  rw [h.find]
  cases hfind : m.find? key with
  | none => rfl
  | some info =>
    have hlevel : info.fLevel ≠ level := fun heq => hat (isAt_iff.mpr ⟨info, hfind, heq⟩)
    exact if_neg hlevel

theorem Offsets.step (h : Offsets m done state) (hkey : key ∉ done)
    (hat : isAt m level key = true) : Offsets m (done ++ [key]) (assignOffset level state key) := by
  obtain ⟨info, hfind, hlevel⟩ := isAt_iff.mp hat
  have hassign : assignOffset level state key =
      (state.1.insert key { offsetAs done key info with fOffset := state.2 }, state.2 + 1) := by
    unfold assignOffset
    rw [h.find, hfind]
    exact if_pos hlevel
  rw [hassign]
  refine ⟨by simp [h.count], ?_⟩
  intro key'
  rw [OrderedMap.find?_insert]
  split_ifs with heq
  · subst heq
    rw [hfind, Option.map_some, Option.some.injEq]
    simp [offsetAs, h.count, List.idxOf_append_of_notMem hkey]
  · rw [h.find]
    congr 1
    funext info'
    unfold offsetAs
    by_cases hmem : key' ∈ done
    · simp [hmem, List.idxOf_append_of_mem hmem]
    · simp [hmem, heq]

def order (m : TldInfoMap) (n : ℕ) : List QString := (levels n).flatMap (atLevel m)

theorem assignOffsets_find (m : TldInfoMap) (n : ℕ) (key : QString) :
    (assignOffsets n m).1.find? key = (m.find? key).map (offsetAs (order m n) key) := by
  have hstart : Offsets m [] (m, 0) := ⟨rfl, fun key => by cases m.find? key <;> rfl⟩
  obtain ⟨state', hrun, hinv⟩ := levels_loop m (fun state => state.1.keys)
    (fun level state key => (pure (assignOffset level state key) : Except Empty _)) (Offsets m)
    (fun _ _ h => h.keys) (fun _ _ _ _ h hkey hat => ⟨_, rfl, h.step hkey hat⟩)
    (fun _ _ _ _ h hat => congrArg Except.ok (h.skip hat)) hstart (levels_nodup n) (by simp)
  simp only [List.foldlM_pure] at hrun
  obtain rfl := Except.ok.inj hrun
  exact hinv.find key

end Offsets

section Rows

/-- What a line tells of the entry of a key, after the lines of other entries. -/
structure Describes (m : TldInfoMap) (front : List QString) (key : QString) (info : TldInfo)
    (row : TldDescription) : Prop where
  range : Tracks ushrtMax front (parentOf · = key) row.fStartOffset row.fEndOffset
  tld : row.fTld = outputUtf8 (baseOf key)
  applyTo : info.fExceptionApplyTo ≠ [] → ∃ target, m.find? info.fExceptionApplyTo = some target ∧
    row.fExceptionApplyTo = target.fOffset % 65536

def Known (m : TldInfoMap) : Prop := ∀ key info, m.find? key = some info →
  info.fExceptionApplyTo ≠ [] → m.Has info.fExceptionApplyTo

def ranged (info : TldInfo) (start stop : ℕ) : TldInfo :=
  { info with fStartOffset := start, fEndOffset := stop }

/-- The state of the loop that writes the table. -/
structure Writing (m : TldInfoMap) (done : List QString) (out : Output) : Prop where
  nodup : done.Nodup
  sub : ∀ key ∈ done, m.Has key
  length : out.rows.length = done.length
  find : ∀ key info, m.find? key = some info → ∃ start stop,
    out.map.find? key = some (ranged info start stop) ∧
      Tracks ushrtMax done (parentOf · = key) start stop
  missing : ∀ key, m.find? key = none → out.map.find? key = none
  rows : ∀ i key, done[i]? = some key → ∃ info row, m.find? key = some info ∧
    out.rows[i]? = some row ∧ Describes m (done.take i) key info row

variable {m : TldInfoMap} {countries : CountryMap} {done : List QString} {out : Output}
  {level : ℕ} {key : QString}

theorem Writing.keys (h : Writing m done out) : out.map.keys = m.keys := by
  refine OrderedMap.keys_eq_of_has _ _ fun key => ?_
  unfold OrderedMap.Has
  cases hfind : m.find? key with
  | none => simp [h.missing key hfind]
  | some info =>
    obtain ⟨start, stop, heq, -⟩ := h.find key info hfind
    simp [heq]

theorem Writing.length_le (h : Writing m done out) : done.length ≤ m.size := by
  rw [OrderedMap.size_eq_length_keys]
  refine (List.Nodup.subperm h.nodup ?_).length_le
  intro key hkey
  exact (OrderedMap.has_iff_mem_keys m key).mp (h.sub key hkey)

theorem Writing.skip (h : Writing m done out) (hat : ¬isAt m level key = true) :
    outputEntry countries level out key = .ok out := by
  unfold outputEntry
  cases hfind : m.find? key with
  | none => rw [h.missing key hfind]
  | some info =>
    obtain ⟨start, stop, heq, -⟩ := h.find key info hfind
    rw [heq]
    have hlevel : info.fLevel ≠ level := fun heq => hat (isAt_iff.mpr ⟨info, hfind, heq⟩)
    exact if_pos hlevel

theorem outputEntry_eq (countries : CountryMap) (h : Writing m done out) (hknown : Known m)
    {info parent : TldInfo}
    {start stop first last : ℕ} (hfind : m.find? key = some info) (hlevel : info.fLevel = level)
    (hinverted : info.fInverted = key) (hrange : out.map.find? key = some (ranged info start stop))
    (hparent : out.map.find? (parentOf key) = some (ranged parent first last)) :
    ∃ row, outputEntry countries level out key = .ok ⟨out.map.insert (parentOf key)
        (ranged parent (if first = ushrtMax then out.rows.length else first)
          (out.rows.length + 1)), out.rows ++ [row]⟩ ∧
      row.fStartOffset = start ∧ row.fEndOffset = stop ∧ row.fTld = outputUtf8 (baseOf key) ∧
      (info.fExceptionApplyTo ≠ [] → ∃ target, m.find? info.fExceptionApplyTo = some target ∧
        row.fExceptionApplyTo = target.fOffset % 65536) := by
  have hsave : saveOffset out.map (ranged info start stop).fInverted out.rows.length =
      .ok (out.map.insert (parentOf key) (ranged parent
        (if first = ushrtMax then out.rows.length else first) (out.rows.length + 1))) := by
    have hkey : (ranged info start stop).fInverted = key := hinverted
    unfold saveOffset
    rw [hkey, hparent]
    rfl
  have hbase : baseOf (ranged info start stop).fInverted = baseOf key := congrArg baseOf hinverted
  unfold outputEntry
  rw [hrange]
  dsimp only
  rw [if_neg (show ¬(ranged info start stop).fLevel ≠ level from not_not.mpr hlevel)]
  by_cases hexception : info.fExceptionApplyTo = []
  · have hnone : ¬(ranged info start stop).fExceptionApplyTo ≠ [] := not_not.mpr hexception
    simp only [if_neg hnone, hsave, hbase, bind, Except.bind]
    exact ⟨_, rfl, rfl, rfl, rfl, fun hne => absurd hexception hne⟩
  · have hsome : (ranged info start stop).fExceptionApplyTo ≠ [] := hexception
    have hhas := hknown key info hfind hexception
    obtain ⟨target, htarget⟩ := Option.ne_none_iff_exists'.mp hhas
    obtain ⟨s, e, hfetch, -⟩ := h.find _ target htarget
    have hpair : fetch out.map (ranged info start stop).fExceptionApplyTo =
        (out.map, ranged target s e) := by
      have happly : (ranged info start stop).fExceptionApplyTo = info.fExceptionApplyTo := rfl
      unfold fetch
      rw [happly, hfetch]
    simp only [if_pos hsome, hpair, hsave, hbase, bind, Except.bind]
    exact ⟨_, rfl, rfl, rfl, rfl, fun _ => ⟨target, htarget, rfl⟩⟩

theorem Writing.step (h : Writing m done out) (hknown : Known m) (hsize : m.size ≤ ushrtMax)
    (hinverted : ∀ key info, m.find? key = some info → info.fInverted = key)
    (hparents : ∀ key, m.Has key → m.Has (parentOf key)) (hkey : key ∉ done)
    (hat : isAt m level key = true) :
    ∃ out', outputEntry countries level out key = .ok out' ∧ Writing m (done ++ [key]) out' := by
  obtain ⟨info, hfind, hinfo⟩ := isAt_iff.mp hat
  have hhas : m.Has key := by simp [OrderedMap.Has, hfind]
  obtain ⟨parent, hparent⟩ := Option.ne_none_iff_exists'.mp (hparents key hhas)
  obtain ⟨start, stop, hrange, htracks⟩ := h.find key info hfind
  obtain ⟨first, last, hprange, hptracks⟩ := h.find _ parent hparent
  obtain ⟨row, hout, hstart, hstop, htld, happly⟩ :=
    outputEntry_eq countries h hknown hfind hinfo (hinverted key info hfind) hrange hprange
  have hlength := h.length_le
  refine ⟨_, hout, ?_⟩
  exact {
    nodup := by
      rw [List.nodup_append]
      refine ⟨h.nodup, List.nodup_singleton _, ?_⟩
      rintro a ha b hb rfl
      exact hkey (List.mem_singleton.mp hb ▸ ha)
    sub := by
      intro k hk
      rcases List.mem_append.mp hk with hk | hk
      · exact h.sub k hk
      · rw [List.mem_singleton.mp hk]
        exact hhas
    length := by simp [h.length]
    find := by
      intro k info' hk
      rw [OrderedMap.find?_insert]
      by_cases hkp : k = parentOf key
      · subst hkp
        obtain rfl := Option.some.inj (hparent.symm.trans hk)
        rw [if_pos rfl]
        refine ⟨_, _, rfl, ?_⟩
        rw [h.length]
        exact hptracks.concat (hlength.trans hsize) rfl
      · rw [if_neg hkp]
        obtain ⟨s, e, heq, ht⟩ := h.find k info' hk
        exact ⟨s, e, heq, ht.concat_of_not (fun heq' => hkp heq'.symm)⟩
    missing := by
      intro k hk
      have hkp : k ≠ parentOf key := by
        rintro rfl
        rw [hk] at hparent
        cases hparent
      rw [OrderedMap.find?_insert, if_neg hkp]
      exact h.missing k hk
    rows := by
      intro i k hk
      rcases lt_trichotomy i done.length with hi | hi | hi
      · rw [List.getElem?_append_left hi] at hk
        obtain ⟨info', row', hinfo', hrow', hdescribes⟩ := h.rows i k hk
        refine ⟨info', row', hinfo', ?_, ?_⟩
        · rw [List.getElem?_append_left (by rw [h.length]; exact hi)]
          exact hrow'
        · rw [List.take_append_of_le_length hi.le]
          exact hdescribes
      · subst hi
        rw [List.getElem?_concat_length] at hk
        obtain rfl := Option.some.inj hk
        refine ⟨info, row, hfind, ?_, ?_⟩
        · rw [← h.length, List.getElem?_concat_length]
        · rw [List.take_left]
          exact ⟨hstart ▸ hstop ▸ htracks, htld, happly⟩
      · rw [List.getElem?_eq_none (by simp; omega)] at hk
        cases hk }

end Rows

theorem chars_cons {u : UInt16} (s : QString) (h : isHigh u = false) :
    chars (u :: s) = unitChar u :: chars s := by
  cases s with
  | nil => rfl
  | cons v rest => exact if_neg (by simp [h])

theorem utf8Char_unitChar {u : UInt16} (h : u < 0x80) :
    isHigh u = false ∧ utf8Char (unitChar u) = [u.toUInt8] := by
  have hall : ∀ n < 0x80, isHigh (UInt16.ofNat n) = false ∧
      utf8Char (unitChar (UInt16.ofNat n)) = [(UInt16.ofNat n).toUInt8] := by
    decide
  have hu := hall u.toNat (UInt16.lt_iff_toNat_lt.mp h)
  rwa [UInt16.ofNat_toNat] at hu

variable {l : QString}

theorem outputUtf8_label (h : IsLabel l) : outputUtf8 l = l.map UInt16.toUInt8 := by
  have hbytes : ∀ s : QString, (∀ c ∈ s, c < 0x80) → toUtf8 s = s.map UInt16.toUInt8 := by
    intro s hs
    induction s with
    | nil => rfl
    | cons c s ih =>
      obtain ⟨hc, hrest⟩ := List.forall_mem_cons.mp hs
      obtain ⟨hhigh, hchar⟩ := utf8Char_unitChar hc
      have htail := ih hrest
      unfold toUtf8 utf8 at htail ⊢
      rw [chars_cons s hhigh, List.flatMap_cons, hchar, htail]
      rfl
  unfold outputUtf8
  rw [hbytes l h.ascii, List.takeWhile_eq_self_iff]
  intro b hb
  obtain ⟨c, hc, rfl⟩ := List.mem_map.mp hb
  have hlow := UInt16.lt_iff_toNat_lt.mp (h.above c hc)
  have hhigh := UInt16.lt_iff_toNat_lt.mp (h.ascii c hc)
  have hne : c.toUInt8 ≠ 0 := by
    intro heq
    have hzero : c.toNat % 256 = 0 := congrArg UInt8.toNat heq
    have : (bang.toNat : ℕ) = 0x21 := rfl
    have : ((0x80 : UInt16).toNat : ℕ) = 0x80 := rfl
    omega
  simpa using hne

theorem charValue_toUInt8 {c : UInt16} (h : c < 0x80) : charValue c.toUInt8 = c.toNat := by
  have hc : c.toNat < 0x80 := UInt16.lt_iff_toNat_lt.mp h
  have hnat : c.toUInt8.toNat = c.toNat := by
    rw [UInt16.toNat_toUInt8]
    exact Nat.mod_eq_of_lt (by omega)
  have hlt : c.toUInt8 < 0x80 := UInt8.lt_iff_toNat_lt.mpr (by rw [hnat]; exact hc)
  rw [charValue, if_pos hlt, hnat]

/-- Bytes of labels compare as the labels do. -/
theorem cmpFrom_map {l' : QString} (hl : ∀ c ∈ l, c < 0x80) (hl' : ∀ c ∈ l', c < 0x80)
    (h : l < l') : cmpFrom (l.map UInt16.toUInt8) (l'.map UInt16.toUInt8) = -1 := by
  induction l generalizing l' with
  | nil =>
    cases l' with
    | nil => exact absurd h (lt_irrefl _)
    | cons d l' => rfl
  | cons c l ih =>
    cases l' with
    | nil => exact absurd h (List.not_lt_nil _)
    | cons d l' =>
      obtain ⟨hc, hrest⟩ := List.forall_mem_cons.mp hl
      obtain ⟨hd, hrest'⟩ := List.forall_mem_cons.mp hl'
      rw [List.map_cons, List.map_cons, cmpFrom, charValue_toUInt8 hc, charValue_toUInt8 hd]
      rcases List.cons_lt_cons_iff.mp h with hlt | ⟨rfl, htail⟩
      · have hnat : (c.toNat : ℤ) < d.toNat := by exact_mod_cast UInt16.lt_iff_toNat_lt.mp hlt
        rw [if_pos hnat]
      · rw [if_neg (lt_irrefl _), if_neg (lt_irrefl _)]
        exact ih hrest hrest' htail

theorem rdropWhile_append {p : QString} (hl : bang ∉ l) :
    (p ++ l).rdropWhile (· ≠ bang) = p.rdropWhile (· ≠ bang) := by
  induction l using List.reverseRecOn with
  | nil => rw [List.append_nil]
  | append_singleton front c ih =>
    have hc : c ≠ bang := fun heq => hl (by simp [heq])
    rw [← List.append_assoc, List.rdropWhile_concat_pos _ _ _ (by simpa using hc)]
    exact ih fun hmem => hl (List.mem_append_left _ hmem)

theorem rtakeWhile_append {p : QString} (hl : bang ∉ l) :
    (p ++ l).rtakeWhile (· ≠ bang) = p.rtakeWhile (· ≠ bang) ++ l := by
  induction l using List.reverseRecOn with
  | nil => rw [List.append_nil, List.append_nil]
  | append_singleton front c ih =>
    have hc : c ≠ bang := fun heq => hl (by simp [heq])
    rw [← List.append_assoc, List.rtakeWhile_concat_pos _ _ _ (by simpa using hc),
      ih fun hmem => hl (List.mem_append_left _ hmem), List.append_assoc]

theorem parentOf_joined (ls : List QString) (hl : bang ∉ l) :
    parentOf (joined bang ls ++ l ++ [bang]) = joined bang ls := by
  unfold parentOf
  rw [List.dropLast_concat, rdropWhile_append hl]
  rcases List.eq_nil_or_concat' ls with rfl | ⟨front, last, rfl⟩
  · rfl
  · rw [joined_concat]
    exact List.rdropWhile_concat_neg _ _ _ (by simp)

theorem baseOf_joined (ls : List QString) (hl : bang ∉ l) :
    baseOf (joined bang ls ++ l ++ [bang]) = l := by
  unfold baseOf
  rw [List.dropLast_concat, rtakeWhile_append hl]
  rcases List.eq_nil_or_concat' ls with rfl | ⟨front, last, rfl⟩
  · rfl
  · rw [joined_concat, List.rtakeWhile_concat_neg _ _ _ (by simp)]
    rfl

theorem key_split {key : QString} {level : ℕ} (h : IsKey key level) (hlevel : 1 ≤ level) :
    ∃ ls l, (∀ x ∈ ls, IsLabel x) ∧ IsLabel l ∧ key = joined bang ls ++ l ++ [bang] ∧
      level = ls.length + 1 := by
  obtain ⟨ls, hls, rfl, rfl⟩ := h
  rcases List.eq_nil_or_concat' ls with rfl | ⟨front, last, rfl⟩
  · exact absurd hlevel (by simp)
  · exact ⟨front, last, fun x hx => hls x (List.mem_append_left _ hx), hls last (by simp),
      joined_concat front last, by simp⟩

end SnapCpp.TldTable
