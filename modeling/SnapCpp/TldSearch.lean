import SnapCpp.TldTable

/-!
The written table can be searched level by level. The range of an entry holds the
entries below it and no others, in the order in which `search()` expects them, and the
range of the first level holds the names of one label. An exception points at the entry
that it applies to if there is one: nothing checks that the map has it.
-/
namespace SnapCpp.TldSearch

open TldParser TldNames TldTable QString WordOrder

/-- The entries of a range are in the order of `cmp()`, apart from wildcards. -/
def Increasing (w : Written) (start stop : ℕ) : Prop :=
  ∀ j k a b, start ≤ j → j < k → k < stop → w.tldDescriptions[j]? = some a →
    w.tldDescriptions[k]? = some b → a.fTld ≠ [0x2A] → b.fTld ≠ [0x2A] →
    TldParser.cmp a.fTld b.fTld = -1

def IsChild (key child : QString) : Prop :=
  ∃ label, label ≠ [] ∧ bang ∉ label ∧ child = key ++ label ++ [bang]

/-- The table has a line for each entry of the map, the one at `i` for the key `names[i]`,
with the range of its children and, for an exception, the place of its target. -/
structure Searchable (m : TldInfoMap) (names : List QString) (w : Written) : Prop where
  complete : names.Perm m.keys
  length : w.tldDescriptions.length = names.length
  named : ∀ (i : ℕ) key row, names[i]? = some key → w.tldDescriptions[i]? = some row →
    row.fTld = outputUtf8 (baseOf key)
  children : ∀ (i : ℕ) key row, names[i]? = some key → w.tldDescriptions[i]? = some row →
    ∀ j, row.fStartOffset ≤ j ∧ j < row.fEndOffset ↔
      ∃ child, names[j]? = some child ∧ IsChild key child
  increasing : ∀ row ∈ w.tldDescriptions, Increasing w row.fStartOffset row.fEndOffset
  top : ∀ j, w.tldStartOffset ≤ j ∧ j < w.tldEndOffset ↔
    ∃ child info, names[j]? = some child ∧ m.find? child = some info ∧ info.fLevel = 1
  topIncreasing : Increasing w w.tldStartOffset w.tldEndOffset
  exceptions : ∀ (i : ℕ) key row info, names[i]? = some key → w.tldDescriptions[i]? = some row →
    m.find? key = some info → info.fExceptionApplyTo ≠ [] →
    names[row.fExceptionApplyTo]? = some info.fExceptionApplyTo

section Order

variable {m : TldInfoMap} {key : QString} {info : TldInfo} {n : ℕ}

theorem le_foldl_level (l : List (QString × TldInfo)) (start : ℕ) :
    start ≤ l.foldl (fun n e => max n e.2.fLevel) start ∧
      ∀ e ∈ l, e.2.fLevel ≤ l.foldl (fun n e => max n e.2.fLevel) start := by
  induction l generalizing start with
  | nil => exact ⟨le_rfl, by simp⟩
  | cons a l ih =>
    obtain ⟨hstart, hall⟩ := ih (max start a.2.fLevel)
    rw [List.foldl_cons]
    refine ⟨(le_max_left _ _).trans hstart, ?_⟩
    intro e he
    rcases List.mem_cons.mp he with rfl | he
    · exact (le_max_right _ _).trans hstart
    · exact hall e he

theorem le_maxLevelOf (h : m.find? key = some info) : info.fLevel ≤ maxLevelOf m :=
  (le_foldl_level m.entries 0).2 (key, info) ((OrderedMap.mem_entries_iff m key info).mpr h)

theorem mem_atLevel {level : ℕ} :
    key ∈ atLevel m level ↔ ∃ info, m.find? key = some info ∧ info.fLevel = level := by
  unfold atLevel
  rw [List.mem_filter, isAt_iff, ← OrderedMap.has_iff_mem_keys]
  constructor
  · exact fun h => h.2
  · rintro ⟨info, hinfo, hlevel⟩
    exact ⟨by simp [OrderedMap.Has, hinfo], info, hinfo, hlevel⟩

theorem mem_order : key ∈ order m n ↔
    ∃ info, m.find? key = some info ∧ 1 ≤ info.fLevel ∧ info.fLevel ≤ n := by
  unfold order
  rw [List.mem_flatMap]
  constructor
  · rintro ⟨level, hlevel, hkey⟩
    obtain ⟨info, hinfo, rfl⟩ := mem_atLevel.mp hkey
    exact ⟨info, hinfo, mem_levels.mp hlevel⟩
  · rintro ⟨info, hinfo, hlevel⟩
    exact ⟨info.fLevel, mem_levels.mpr hlevel, mem_atLevel.mpr ⟨info, hinfo, rfl⟩⟩

def levelOf (m : TldInfoMap) (key : QString) : ℕ := ((m.find? key).map TldInfo.fLevel).getD 0

theorem levelOf_eq (h : m.find? key = some info) : levelOf m key = info.fLevel := by
  simp [levelOf, h]

def Before (m : TldInfoMap) (a b : QString) : Prop :=
  levelOf m b < levelOf m a ∨ levelOf m a = levelOf m b ∧ a < b

theorem levels_pairwise (n : ℕ) : (levels n).Pairwise (fun a b => b < a) := by
  unfold levels
  rw [List.pairwise_map, List.pairwise_reverse]
  exact List.pairwise_lt_range.imp fun h => Nat.add_lt_add_right h 1

theorem order_pairwise (m : TldInfoMap) (n : ℕ) : (order m n).Pairwise (Before m) := by
  have hlevel : ∀ {level key}, key ∈ atLevel m level → levelOf m key = level := by
    intro level key hkey
    obtain ⟨info, hinfo, rfl⟩ := mem_atLevel.mp hkey
    exact levelOf_eq hinfo
  unfold order
  rw [List.pairwise_flatMap]
  constructor
  · intro level _
    refine (m.keys_sorted.filter _).imp_of_mem ?_
    intro a b ha hb hlt
    exact Or.inr ⟨(hlevel ha).trans (hlevel hb).symm, hlt⟩
  · refine (levels_pairwise n).imp ?_
    intro l l' hlt a ha b hb
    exact Or.inl (by rwa [hlevel ha, hlevel hb])

theorem order_nodup (m : TldInfoMap) (n : ℕ) : (order m n).Nodup := by
  refine (order_pairwise m n).imp ?_
  rintro a b (hlt | ⟨-, hlt⟩) rfl
  · exact lt_irrefl _ hlt
  · exact lt_irrefl _ hlt

theorem before_of_lt {i j : ℕ} {a b : QString} (hi : (order m n)[i]? = some a)
    (hj : (order m n)[j]? = some b) (hij : i < j) : Before m a b := by
  obtain ⟨hi', rfl⟩ := List.getElem?_eq_some_iff.mp hi
  obtain ⟨hj', rfl⟩ := List.getElem?_eq_some_iff.mp hj
  exact List.pairwise_iff_getElem.mp (order_pairwise m n) i j hi' hj' hij

end Order

section Children

variable {m : TldInfoMap} {n : ℕ} {key child : QString} {info : TldInfo} {level : ℕ}
  {start stop : ℕ}

theorem isKey_nil : IsKey [] 0 := ⟨[], by simp, rfl, rfl⟩

theorem placed_ne_nil (h : Placed key info) : key ≠ [] := by
  obtain ⟨ls, l, -, -, rfl, -⟩ := key_split h.isKey h.level
  simp

theorem parentOf_iff (hkey : IsKey key level) (hchild : Placed child info) :
    parentOf child = key ↔ IsChild key child := by
  obtain ⟨lk, hlk, rfl, rfl⟩ := hkey
  obtain ⟨ls, l, hls, hl, rfl, -⟩ := key_split hchild.isKey hchild.level
  constructor
  · rw [parentOf_joined ls hl.mark_notMem]
    intro heq
    exact ⟨l, hl.ne_nil, hl.mark_notMem, by rw [heq]⟩
  · rintro ⟨label, -, hlabel, heq⟩
    rw [heq, parentOf_joined lk hlabel]

theorem level_of_parentOf (hkey : IsKey key level) (hchild : Placed child info)
    (h : parentOf child = key) : info.fLevel = level + 1 := by
  obtain ⟨lk, hlk, rfl, rfl⟩ := hkey
  obtain ⟨ls, l, hls, hl, rfl, hlevel⟩ := key_split hchild.isKey hchild.level
  rw [parentOf_joined ls hl.mark_notMem] at h
  have hsame :=
    joined_injective (fun w hw => (hls w hw).toIsWord) (fun w hw => (hlk w hw).toIsWord) h
  rw [hlevel, hsame]

theorem parentOf_of_prefix (hkey : IsKey key level) (hchild : Placed child info)
    (hlevel : info.fLevel = level + 1) (h : key <+: child) : parentOf child = key := by
  obtain ⟨lk, hlk, rfl, rfl⟩ := hkey
  obtain ⟨ls, l, hls, hl, rfl, hlength⟩ := key_split hchild.isKey hchild.level
  rw [parentOf_joined ls hl.mark_notMem]
  have hwords : ∀ w ∈ ls ++ [l], IsWord bang w := by
    intro w hw
    rcases List.mem_append.mp hw with hw | hw
    · exact (hls w hw).toIsWord
    · rw [List.mem_singleton.mp hw]
      exact hl.toIsWord
  rw [← joined_concat] at h
  have hfront : lk <+: ls ++ [l] :=
    prefix_of_joined_prefix (fun w hw => (hlk w hw).toIsWord) hwords h
  have hlen : lk.length = ls.length := by omega
  rw [List.prefix_iff_eq_take.mp hfront, hlen, List.take_left]

/-- The entries that are written, of which all but the top have their place. -/
def PlacedOrder (m : TldInfoMap) (n : ℕ) : Prop :=
  ∀ key ∈ order m n, ∃ info, m.find? key = some info ∧ Placed key info

theorem at_info (hplaced : PlacedOrder m n) {p : QString → Prop} {i : ℕ}
    (h : At (order m n) p i) : ∃ a info, (order m n)[i]? = some a ∧ p a ∧
      m.find? a = some info ∧ Placed a info := by
  obtain ⟨a, ha, hp⟩ := h
  obtain ⟨info, hinfo, hplace⟩ := hplaced a (List.mem_of_getElem? ha)
  exact ⟨a, info, ha, hp, hinfo, hplace⟩

/-- Between two children of an entry there are only children of it. -/
theorem at_between (hplaced : PlacedOrder m n) (hkey : IsKey key level) (i j k : ℕ)
    (hi : At (order m n) (parentOf · = key) i) (hk : At (order m n) (parentOf · = key) k)
    (hij : i ≤ j) (hjk : j ≤ k) : At (order m n) (parentOf · = key) j := by
  have hj : At (order m n) (fun _ => True) j := by
    have hlt := hk.lt
    exact ⟨_, List.getElem?_eq_getElem (by omega), trivial⟩
  obtain ⟨a, ainfo, ha, hparent, hafind, haplace⟩ := at_info hplaced hi
  obtain ⟨x, xinfo, hx, -, hxfind, hxplace⟩ := at_info hplaced hj
  obtain ⟨c, cinfo, hc, hparent', hcfind, hcplace⟩ := at_info hplaced hk
  have halevel := level_of_parentOf hkey haplace hparent
  have hclevel := level_of_parentOf hkey hcplace hparent'
  rcases hij.eq_or_lt with rfl | hij
  · obtain rfl := Option.some.inj (ha.symm.trans hx)
    exact ⟨a, ha, hparent⟩
  rcases hjk.eq_or_lt with rfl | hjk
  · obtain rfl := Option.some.inj (hc.symm.trans hx)
    exact ⟨c, hc, hparent'⟩
  have hax := before_of_lt ha hx hij
  have hxc := before_of_lt hx hc hjk
  unfold Before at hax hxc
  rw [levelOf_eq hafind, levelOf_eq hxfind, halevel] at hax
  rw [levelOf_eq hxfind, levelOf_eq hcfind, hclevel] at hxc
  obtain ⟨hlevel, hax⟩ : level + 1 = xinfo.fLevel ∧ a < x := by
    rcases hax with hlt | h
    · omega
    · exact h
  have hxc : x < c := by
    rcases hxc with hlt | h
    · omega
    · exact h.2
  obtain ⟨label, -, -, rfl⟩ := (parentOf_iff hkey haplace).mp hparent
  obtain ⟨label', -, -, rfl⟩ := (parentOf_iff hkey hcplace).mp hparent'
  rw [List.append_assoc] at hax hxc
  exact ⟨x, hx, parentOf_of_prefix hkey hxplace hlevel.symm (prefix_of_between hax.le hxc.le)⟩

/-- The labels of two children of an entry are in the order of their characters. -/
theorem cmpFrom_children (hplaced : PlacedOrder m n) (hkey : IsKey key level) {j k : ℕ}
    {a b : QString} (hj : (order m n)[j]? = some a) (hk : (order m n)[k]? = some b) (hjk : j < k)
    (ha : parentOf a = key) (hb : parentOf b = key) :
    cmpFrom (outputUtf8 (baseOf a)) (outputUtf8 (baseOf b)) = -1 := by
  obtain ⟨ainfo, hafind, haplace⟩ := hplaced a (List.mem_of_getElem? hj)
  obtain ⟨binfo, hbfind, hbplace⟩ := hplaced b (List.mem_of_getElem? hk)
  have halevel := level_of_parentOf hkey haplace ha
  have hblevel := level_of_parentOf hkey hbplace hb
  have hlt : a < b := by
    have hbefore := before_of_lt hj hk hjk
    unfold Before at hbefore
    rw [levelOf_eq hafind, levelOf_eq hbfind, halevel, hblevel] at hbefore
    exact (hbefore.resolve_left (lt_irrefl _)).2
  obtain ⟨ls, l, hls, hl, rfl, -⟩ := key_split haplace.isKey haplace.level
  obtain ⟨ls', l', hls', hl', rfl, -⟩ := key_split hbplace.isKey hbplace.level
  rw [parentOf_joined ls hl.mark_notMem] at ha
  rw [parentOf_joined ls' hl'.mark_notMem] at hb
  rw [ha, hb, List.append_assoc, List.append_assoc, append_lt_append_iff] at hlt
  rw [baseOf_joined ls hl.mark_notMem, baseOf_joined ls' hl'.mark_notMem, outputUtf8_label hl,
    outputUtf8_label hl']
  exact cmpFrom_map hl.ascii hl'.ascii (lt_of_mark_lt hl.above hlt)

/-- Two children of an entry are in the order of `cmp()`. -/
theorem cmp_children (hplaced : PlacedOrder m n) (hkey : IsKey key level) {j k : ℕ} {a b : QString}
    (hj : (order m n)[j]? = some a) (hk : (order m n)[k]? = some b) (hjk : j < k)
    (ha : parentOf a = key) (hb : parentOf b = key) (hwild : outputUtf8 (baseOf a) ≠ [0x2A]) :
    TldParser.cmp (outputUtf8 (baseOf a)) (outputUtf8 (baseOf b)) = -1 := by
  rw [TldParser.cmp, if_neg hwild]
  exact cmpFrom_children hplaced hkey hj hk hjk ha hb

theorem mem_range_iff (hplaced : PlacedOrder m n) (hkey : IsKey key level)
    (h : Tracks ushrtMax (order m n) (parentOf · = key) start stop) (j : ℕ) :
    start ≤ j ∧ j < stop ↔ ∃ child, (order m n)[j]? = some child ∧ IsChild key child := by
  rw [h.mem_iff (at_between hplaced hkey)]
  constructor
  · intro hj
    obtain ⟨a, info, ha, hparent, -, hplace⟩ := at_info hplaced hj
    exact ⟨a, ha, (parentOf_iff hkey hplace).mp hparent⟩
  · rintro ⟨a, ha, hchild⟩
    obtain ⟨info, -, hplace⟩ := hplaced a (List.mem_of_getElem? ha)
    exact ⟨a, ha, (parentOf_iff hkey hplace).mpr hchild⟩

theorem increasing_range (hplaced : PlacedOrder m n) (hkey : IsKey key level) {w : Written}
    (hnamed : ∀ (i : ℕ) key row, (order m n)[i]? = some key → w.tldDescriptions[i]? = some row →
      row.fTld = outputUtf8 (baseOf key))
    (h : Tracks ushrtMax (order m n) (parentOf · = key) start stop) : Increasing w start stop := by
  intro j k a b hj hjk hk ha hb hwild _
  have hbetween := at_between hplaced hkey
  obtain ⟨x, hx, hparent⟩ := (h.mem_iff hbetween).mp ⟨hj, hjk.trans hk⟩
  obtain ⟨y, hy, hparent'⟩ := (h.mem_iff hbetween).mp ⟨hj.trans hjk.le, hk⟩
  rw [hnamed j x a hx ha] at hwild ⊢
  rw [hnamed k y b hy hb]
  exact cmp_children hplaced hkey hx hy hjk hparent hparent' hwild

/-- No child of an entry is written behind it. -/
theorem tracks_of_take (hplaced : PlacedOrder m n) {i : ℕ}
    (hi : (order m n)[i]? = some key)
    (h : Tracks ushrtMax ((order m n).take i) (parentOf · = key) start stop) :
    Tracks ushrtMax (order m n) (parentOf · = key) start stop := by
  obtain ⟨info, hinfo, hplace⟩ := hplaced key (List.mem_of_getElem? hi)
  rw [← List.take_append_drop i (order m n)]
  refine h.append_of_not ?_
  intro child hchild hparent
  obtain ⟨j, hj⟩ := List.mem_iff_getElem?.mp hchild
  rw [List.getElem?_drop] at hj
  obtain ⟨cinfo, hcinfo, hcplace⟩ := hplaced child (List.mem_of_getElem? hj)
  have hlevel := level_of_parentOf hplace.isKey hcplace hparent
  rcases Nat.eq_zero_or_pos j with rfl | hpos
  · rw [Nat.add_zero] at hj
    obtain rfl := Option.some.inj (hi.symm.trans hj)
    obtain rfl := Option.some.inj (hinfo.symm.trans hcinfo)
    omega
  · have hbefore := before_of_lt hi hj (by omega)
    unfold Before at hbefore
    rw [levelOf_eq hinfo, levelOf_eq hcinfo] at hbefore
    omega

end Children

section Written

variable {m : TldInfoMap} {countries : CountryMap}

def withTop (m : TldInfoMap) : TldInfoMap := m.insert [] topLevel

def names (m : TldInfoMap) : List QString := order (withTop m) (maxLevelOf (withTop m))

def withOffsets (m : TldInfoMap) : TldInfoMap :=
  (assignOffsets (maxLevelOf (withTop m)) (withTop m)).1

theorem withTop_find (m : TldInfoMap) (key : QString) :
    (withTop m).find? key = if key = [] then some topLevel else m.find? key := by
  rw [withTop, OrderedMap.find?_insert]
  split_ifs <;> rfl

theorem withOffsets_find (m : TldInfoMap) (key : QString) :
    (withOffsets m).find? key = ((withTop m).find? key).map (offsetAs (names m) key) :=
  assignOffsets_find ..

theorem withOffsets_has (m : TldInfoMap) (key : QString) :
    (withOffsets m).Has key ↔ (withTop m).Has key := by
  unfold OrderedMap.Has
  rw [withOffsets_find]
  simp

theorem order_withOffsets (m : TldInfoMap) (n : ℕ) :
    order (withOffsets m) n = order (withTop m) n := by
  have hlevel : ∀ level, atLevel (withOffsets m) level = atLevel (withTop m) level := by
    intro level
    unfold atLevel
    rw [OrderedMap.keys_eq_of_has _ _ (withOffsets_has m)]
    refine List.filter_congr fun key _ => ?_
    unfold isAt
    rw [withOffsets_find]
    cases (withTop m).find? key <;> rfl
  unfold order
  rw [funext hlevel]

theorem mem_names (hm : AllPlaced m) {key : QString} : key ∈ names m ↔ m.Has key := by
  unfold names OrderedMap.Has
  rw [mem_order]
  constructor
  · rintro ⟨info, hfind, hlevel, -⟩
    rw [withTop_find] at hfind
    split_ifs at hfind with hkey
    · obtain rfl := Option.some.inj hfind
      exact absurd hlevel (by decide)
    · simp [hfind]
  · intro hhas
    obtain ⟨info, hfind⟩ := Option.ne_none_iff_exists'.mp hhas
    have hplace := hm key info hfind
    have htop : (withTop m).find? key = some info := by
      rw [withTop_find, if_neg (placed_ne_nil hplace), hfind]
    exact ⟨info, htop, hplace.level, le_maxLevelOf htop⟩

theorem placedOrder_names (hm : AllPlaced m) :
    PlacedOrder (withTop m) (maxLevelOf (withTop m)) := by
  intro key hkey
  obtain ⟨info, hfind⟩ := Option.ne_none_iff_exists'.mp ((mem_names hm).mp hkey)
  have hplace := hm key info hfind
  refine ⟨info, ?_, hplace⟩
  rw [withTop_find, if_neg (placed_ne_nil hplace), hfind]

theorem names_nodup (m : TldInfoMap) : (names m).Nodup := order_nodup _ _

theorem names_perm (hm : AllPlaced m) : (names m).Perm m.keys := by
  refine (List.perm_ext_iff_of_nodup (names_nodup m) m.keys_nodup).mpr ?_
  intro key
  rw [mem_names hm, OrderedMap.has_iff_mem_keys]

/-- The entries of the verified map and the top, before the first line is written. -/
theorem writing_start (hm : AllPlaced m) : Writing (withOffsets m) [] { map := withOffsets m } where
  nodup := List.nodup_nil
  sub := by simp
  length := rfl
  find := by
    intro key info hfind
    refine ⟨ushrtMax, ushrtMax, ?_, tracks_nil⟩
    have hrange : info.fStartOffset = ushrtMax ∧ info.fEndOffset = ushrtMax := by
      rw [withOffsets_find] at hfind
      obtain ⟨old, hold, rfl⟩ := Option.map_eq_some_iff.mp hfind
      rw [withTop_find] at hold
      split_ifs at hold with hkey
      · obtain rfl := Option.some.inj hold
        exact ⟨rfl, rfl⟩
      · have hplace := hm key old hold
        exact ⟨hplace.start, hplace.stop⟩
    have hsame : ranged info ushrtMax ushrtMax = info := by
      calc ranged info ushrtMax ushrtMax
          = ranged info info.fStartOffset info.fEndOffset := by rw [hrange.1, hrange.2]
        _ = info := rfl
    rw [hsame]
    exact hfind
  missing := fun _ h => h
  rows := by simp

theorem inverted_withOffsets (hm : AllPlaced m) (key : QString) (info : TldInfo)
    (h : (withOffsets m).find? key = some info) : info.fInverted = key := by
  rw [withOffsets_find] at h
  obtain ⟨old, hold, rfl⟩ := Option.map_eq_some_iff.mp h
  rw [withTop_find] at hold
  split_ifs at hold with hkey
  · obtain rfl := Option.some.inj hold
    exact hkey.symm
  · exact (hm key old hold).inverted

theorem withTop_has (m : TldInfoMap) (key : QString) :
    (withTop m).Has key ↔ key = [] ∨ m.Has key := by
  unfold OrderedMap.Has
  rw [withTop_find]
  split_ifs with hkey <;> simp [hkey]

def HasParents (m : TldInfoMap) : Prop :=
  ∀ key, m.Has key → parentOf key = [] ∨ m.Has (parentOf key)

theorem parents_withOffsets (h : HasParents m) (key : QString) (hkey : (withOffsets m).Has key) :
    (withOffsets m).Has (parentOf key) := by
  rw [withOffsets_has, withTop_has] at hkey ⊢
  rcases hkey with rfl | hkey
  · exact Or.inl rfl
  · exact h key hkey

theorem known_withOffsets (h : Known m) : Known (withOffsets m) := by
  intro key info hfind hne
  rw [withOffsets_find] at hfind
  obtain ⟨old, hold, rfl⟩ := Option.map_eq_some_iff.mp hfind
  rw [withOffsets_has, withTop_has]
  rw [withTop_find] at hold
  split_ifs at hold with hkey
  · obtain rfl := Option.some.inj hold
    exact absurd rfl hne
  · exact Or.inr (h key old hold hne)

theorem size_withOffsets_le (hm : AllPlaced m) : (withOffsets m).size = m.size + 1 := by
  have hnot : ¬m.Has [] := by
    intro hhas
    obtain ⟨info, hfind⟩ := Option.ne_none_iff_exists'.mp hhas
    exact placed_ne_nil (hm [] info hfind) rfl
  rw [OrderedMap.size_eq_length_keys, OrderedMap.keys_eq_of_has _ _ (withOffsets_has m),
    ← OrderedMap.size_eq_length_keys]
  exact OrderedMap.size_insert m [] topLevel hnot

/-- The table is written, and its lines tell of the entries in their order. -/
theorem outputTlds_ok (countries : CountryMap) (hm : AllPlaced m) (hparents : HasParents m)
    (hsize : m.size ≤ 65534) (hknown : Known m) :
    ∃ out top start stop, outputTlds m countries = .ok ⟨out.rows, start, stop,
        maxLevelOf (withTop m)⟩ ∧ Writing (withOffsets m) (names m) out ∧
      out.map.find? [] = some (ranged top start stop) ∧
      Tracks ushrtMax (names m) (parentOf · = []) start stop := by
  have hle : (withOffsets m).size ≤ ushrtMax := by
    rw [size_withOffsets_le hm, ushrtMax]
    omega
  obtain ⟨out, hrun, hinv⟩ := levels_loop (withOffsets m) (fun out => out.map.keys)
    (outputEntry countries) (Writing (withOffsets m)) (fun _ _ h => h.keys)
    (fun _ _ _ _ h hkey hat => h.step (known_withOffsets hknown) hle (inverted_withOffsets hm)
      (parents_withOffsets hparents) hkey hat)
    (fun _ _ _ _ h hat => h.skip hat) (writing_start hm)
    (levels_nodup (maxLevelOf (withTop m))) (by simp)
  rw [List.nil_append] at hinv
  have hinv' : Writing (withOffsets m) (names m) out := by
    have horder := order_withOffsets m (maxLevelOf (withTop m))
    unfold order at horder
    rw [horder] at hinv
    exact hinv
  have htop : (withOffsets m).Has [] := by
    rw [withOffsets_has, withTop_has]
    exact Or.inl rfl
  obtain ⟨top, hfind⟩ := Option.ne_none_iff_exists'.mp htop
  obtain ⟨start, stop, hrange, htracks⟩ := hinv'.find [] top hfind
  refine ⟨out, top, start, stop, ?_, hinv', hrange, htracks⟩
  have hfetch : fetch out.map [] = (out.map, ranged top start stop) := by
    unfold fetch
    rw [hrange]
  unfold outputTlds
  unfold withOffsets withTop at hrun
  simp only [hrun, hfetch, bind, Except.bind]
  rfl

theorem searchable_of_writing (hm : AllPlaced m) (hsize : m.size ≤ 65534) {out : Output}
    {start stop maxLevel : ℕ} (hinv : Writing (withOffsets m) (names m) out)
    (htop : Tracks ushrtMax (names m) (parentOf · = []) start stop) :
    Searchable m (names m) ⟨out.rows, start, stop, maxLevel⟩ := by
  have hplaced := placedOrder_names hm
  have hrow : ∀ (i : ℕ) key row, (names m)[i]? = some key → out.rows[i]? = some row →
      ∃ info, (withOffsets m).find? key = some info ∧
        Describes (withOffsets m) ((names m).take i) key info row := by
    intro i key row hkey hrow
    obtain ⟨info, row', hinfo, hrow', hdescribes⟩ := hinv.rows i key hkey
    obtain rfl := Option.some.inj (hrow.symm.trans hrow')
    exact ⟨info, hinfo, hdescribes⟩
  have hnamed : ∀ (i : ℕ) key row, (names m)[i]? = some key → out.rows[i]? = some row →
      row.fTld = outputUtf8 (baseOf key) := by
    intro i key row hkey hi
    obtain ⟨info, -, hdescribes⟩ := hrow i key row hkey hi
    exact hdescribes.tld
  have hrange : ∀ (i : ℕ) key row, (names m)[i]? = some key → out.rows[i]? = some row →
      Tracks ushrtMax (names m) (parentOf · = key) row.fStartOffset row.fEndOffset := by
    intro i key row hkey hi
    obtain ⟨info, -, hdescribes⟩ := hrow i key row hkey hi
    exact tracks_of_take hplaced hkey hdescribes.range
  have hisKey : ∀ (i : ℕ) key, (names m)[i]? = some key → ∃ level, IsKey key level := by
    intro i key hkey
    obtain ⟨info, -, hplace⟩ := hplaced key (List.mem_of_getElem? hkey)
    exact ⟨info.fLevel, hplace.isKey⟩
  exact {
    complete := names_perm hm
    length := hinv.length
    named := hnamed
    children := by
      intro i key row hkey hi j
      obtain ⟨level, hlevel⟩ := hisKey i key hkey
      exact mem_range_iff hplaced hlevel (hrange i key row hkey hi) j
    increasing := by
      intro row hmem
      obtain ⟨i, hi⟩ := List.mem_iff_getElem?.mp hmem
      have hlt : i < (names m).length := hinv.length ▸ (List.getElem?_eq_some_iff.mp hi).1
      have hkey := List.getElem?_eq_getElem hlt
      obtain ⟨level, hlevel⟩ := hisKey i _ hkey
      exact increasing_range hplaced hlevel hnamed (hrange i _ row hkey hi)
    top := by
      intro j
      rw [htop.mem_iff (at_between hplaced isKey_nil)]
      constructor
      · intro hj
        obtain ⟨child, info, hchild, hparent, hfind, hplace⟩ := at_info hplaced hj
        rw [withTop_find, if_neg (placed_ne_nil hplace)] at hfind
        exact ⟨child, info, hchild, hfind, level_of_parentOf isKey_nil hplace hparent⟩
      · rintro ⟨child, info, hchild, hfind, hlevel⟩
        exact ⟨child, hchild,
          parentOf_of_prefix isKey_nil (hm child info hfind) hlevel List.nil_prefix⟩
    topIncreasing := increasing_range hplaced isKey_nil hnamed htop
    exceptions := by
      intro i key row info hkey hi hfind hne
      obtain ⟨info', hinfo', hdescribes⟩ := hrow i key row hkey hi
      rw [withOffsets_find, withTop_find, if_neg (placed_ne_nil (hm key info hfind)),
        hfind] at hinfo'
      obtain rfl := Option.some.inj hinfo'
      obtain ⟨target, htarget, happly⟩ := hdescribes.applyTo hne
      have happlied : (offsetAs (names m) key info).fExceptionApplyTo =
          info.fExceptionApplyTo := rfl
      rw [happlied, withOffsets_find] at htarget
      obtain ⟨old, hold, rfl⟩ := Option.map_eq_some_iff.mp htarget
      rw [withTop_find, if_neg hne] at hold
      have hmem : info.fExceptionApplyTo ∈ names m := by
        rw [mem_names hm, OrderedMap.Has, hold]
        simp
      have hidx := List.idxOf_lt_length_of_mem hmem
      have hlength : (names m).length = m.size := by
        rw [(names_perm hm).length_eq, OrderedMap.size_eq_length_keys]
      have hoffset : (offsetAs (names m) info.fExceptionApplyTo old).fOffset =
          (names m).idxOf info.fExceptionApplyTo := if_pos hmem
      rw [happly, hoffset, Nat.mod_eq_of_lt (by omega), List.getElem?_eq_getElem hidx,
        List.getElem_idxOf hidx] }

theorem known_of_searchable {names : List QString} {w : Written} (h : Searchable m names w) :
    Known m := by
  intro key info hfind hne
  have hkey : key ∈ names := by
    rw [h.complete.mem_iff, ← OrderedMap.has_iff_mem_keys, OrderedMap.Has, hfind]
    simp
  obtain ⟨i, hi⟩ := List.mem_iff_getElem?.mp hkey
  have hlt : i < w.tldDescriptions.length :=
    h.length.symm ▸ (List.getElem?_eq_some_iff.mp hi).1
  have htarget := h.exceptions i key _ info hi (List.getElem?_eq_getElem hlt) hfind hne
  rw [OrderedMap.has_iff_mem_keys, ← h.complete.mem_iff]
  exact List.mem_of_getElem? htarget

/-- The table of a document that the tool accepts can be searched exactly when each
exception applies to a name of the document. -/
theorem searchable_iff (isLetterOrNumber : UInt16 → Bool) (doc : List Node)
    (read verified : TldInfoMap) (countries : CountryMap)
    (hread : readTlds doc = .ok (read, countries))
    (hverify : verifyData isLetterOrNumber read = .ok verified) (hparents : HasParents verified)
    (hsize : verified.size ≤ 65534) :
    (∃ names w, outputTlds verified countries = .ok w ∧ Searchable verified names w) ↔
      Known verified := by
  have hm : AllPlaced verified := verifyData_placed (readTlds_entered hread) hverify
  constructor
  · rintro ⟨names, w, -, hsearch⟩
    exact known_of_searchable hsearch
  · intro hknown
    obtain ⟨out, top, start, stop, hout, hinv, -, htracks⟩ :=
      outputTlds_ok countries hm hparents hsize hknown
    exact ⟨names verified, _, hout, searchable_of_writing hm hsize hinv htracks⟩

/-- `.com` with a name below it, which is an exception. -/
def document (applyTo : String) : List Node :=
  [.element (ascii "tld") [] [.element (ascii "area") [(ascii "category", ascii "international")]
    [.characterData (ascii ".com"),
      .element (ascii "exceptions") [(ascii "apply-to", ascii applyTo)]
        [.characterData (ascii ".b.com")]]]]

def isLowercase (c : UInt16) : Bool := 0x61 ≤ c && c ≤ 0x7A

def entry (key tld applyTo : String) (level : ℕ) : QString × TldInfo :=
  (ascii key, {
    fCategoryName := ascii "international"
    fLevel := level
    fTld := ascii tld
    fInverted := ascii key
    fExceptionApplyTo := ascii applyTo
    fStartOffset := ushrtMax
    fEndOffset := ushrtMax })

def readMap (applyTo : String) : TldInfoMap where
  entries := [entry "com!" ".com" "" 1, entry "com!b!" ".b.com" applyTo 2]
  sorted := by
    rw [List.pairwise_pair]
    show ascii "com!" < ascii "com!b!"
    decide

def classify (info : TldInfo) : TldInfo :=
  { info with fCategory := some .international, fReason := some .valid }

def verifiedMap (applyTo : String) : TldInfoMap where
  entries := (readMap applyTo).entries.map fun e => (e.1, classify e.2)
  sorted := by
    rw [List.pairwise_map]
    exact (readMap applyTo).sorted

theorem known_of_entries (h : ∀ e ∈ m.entries, e.2.fExceptionApplyTo ≠ [] →
    m.Has e.2.fExceptionApplyTo) : Known m := by
  intro key info hfind
  exact h (key, info) ((OrderedMap.mem_entries_iff m key info).mpr hfind)

theorem hasParents_of_keys (h : ∀ key ∈ m.keys, parentOf key = [] ∨ m.Has (parentOf key)) :
    HasParents m := fun key hkey => h key ((OrderedMap.has_iff_mem_keys m key).mp hkey)

theorem searchable_iff_document : ∃ names w,
    outputTlds (verifiedMap "com!") .empty = .ok w ∧ Searchable (verifiedMap "com!") names w := by
  have hread : readTlds (document ".com") = .ok (readMap "com!", .empty) := by decide
  have hverify : verifyData isLowercase (readMap "com!") = .ok (verifiedMap "com!") := by
    decide
  have hparents : HasParents (verifiedMap "com!") := hasParents_of_keys (by decide)
  have hknown : Known (verifiedMap "com!") := known_of_entries (by decide)
  exact (searchable_iff isLowercase (document ".com") _ _ _ hread hverify hparents
    (by decide)).mpr hknown

/-- An exception that applies to a name that is not there points at the first line. -/
theorem absent_target_accepted :
    readTlds (document ".org") = .ok (readMap "org!", .empty) ∧
      verifyData isLowercase (readMap "org!") = .ok (verifiedMap "org!") ∧
      HasParents (verifiedMap "org!") ∧ (verifiedMap "org!").size ≤ 65534 ∧
      (∃ w, outputTlds (verifiedMap "org!") .empty = .ok w ∧
        w.tldDescriptions.map TldDescription.fExceptionApplyTo = [0, ushrtMax]) ∧
      ¬∃ names w, outputTlds (verifiedMap "org!") .empty = .ok w ∧
        Searchable (verifiedMap "org!") names w := by
  refine ⟨by decide, by decide, hasParents_of_keys (by decide),
    by decide, ?_, ?_⟩
  · exact ⟨⟨[{
        fCategory := some .international
        fStatus := some .exception
        fStartOffset := ushrtMax
        fEndOffset := ushrtMax
        fExceptionApplyTo := 0
        fExceptionLevel := 2
        fTld := [0x62]
        fCountry := none }, {
        fCategory := some .international
        fStatus := some .valid
        fStartOffset := 0
        fEndOffset := 1
        fExceptionApplyTo := ushrtMax
        fExceptionLevel := 1
        fTld := [0x63, 0x6F, 0x6D]
        fCountry := none }], 1, 2, 2⟩, by decide, rfl⟩
  · rintro ⟨names, w, -, hsearch⟩
    have hhas := known_of_searchable hsearch (ascii "com!b!")
      (classify (entry "com!b!" ".b.com" "org!" 2).2) (by decide) (by decide)
    exact absurd hhas (by decide)

end Written

end SnapCpp.TldSearch
