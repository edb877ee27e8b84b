import SnapCpp.UriAssign
import SnapCpp.UrlStrict

/-!
URIs with a hash bang. The path is written behind `#!/`, and is read from the anchor together with
the exclamation mark, which becomes a segment of its own. The segments are decoded twice, so that
an escape that is left in one of them makes it shorter.
-/
namespace SnapCpp.SnapUri

open TldEmails (Bytes)
open QString Utf UrlCode UriPath StackMachine Pieces
open StringReplace (IsAscii unit8 utf8_asciiCompatible utf16_asciiCompatible isAscii_of_utf8
  utf8_ascii count_decodeFrom)

section Twice

variable {w : List Char} {d : QString}

theorem decodes_of_decode (hnul : nul ∉ w) (h : decode (utf16 w) = .ok d) :
    ∃ r, Decodes (utf8 w) r ∧ chars d = skipMark (decodeFrom 0 (cBytes r)) := by
  rw [decode, urldecode, toUtf8, chars_utf16, cBytes_utf8 hnul] at h
  cases hbytes : decodeBytes false 0 (utf8 w) with
  | error e =>
    rw [hbytes] at h
    cases h
  | ok r =>
    rw [hbytes] at h
    refine ⟨r, decodes_of_ok hbytes, ?_⟩
    rw [← Except.ok.inj h, fromUtf8, chars_utf16]

theorem shorter (hnul : nul ∉ w) (h : decode (utf16 w) = .ok d) (hmem : '%' ∈ chars d) :
    '%' ∈ w ∧ (chars d).length < w.length := by
  obtain ⟨r, hdecodes, hd⟩ := decodes_of_decode hnul h
  have hascii := isAscii_of_utf8 hdecodes.ascii
  have hread : '%' ∈ decodeFrom 0 (cBytes r) := (skipMark_sublist _).mem (hd ▸ hmem)
  have hcount := count_decodeFrom (by decide : IsAscii '%') (cBytes r)
  have hpos := List.count_pos_iff.mpr hread
  rw [hcount, unit8_percent] at hpos
  have hr : percent ∈ r := (List.takeWhile_sublist _).mem (List.count_pos_iff.mp hpos)
  have hw : percent ∈ utf8 w := hdecodes.percent_mem hr
  refine ⟨(utf8_asciiCompatible.mem_iff (by decide) w).mp hw, ?_⟩
  have hlength := hdecodes.length
  have hescapes := List.count_pos_iff.mpr hw
  have hskip := (skipMark_sublist (decodeFrom 0 (cBytes r))).length_le
  have hchars := length_decodeFrom_le 0 (cBytes r)
  have hstop : (cBytes r).length ≤ r.length := (List.takeWhile_sublist _).length_le
  rw [utf8_ascii hascii, List.length_map] at hlength
  rw [utf8_ascii hascii] at hescapes
  rw [hd]
  omega

theorem decode_plain (hnul : nul ∉ w) (h : decode (utf16 w) = .ok d) (hpercent : '%' ∉ w) :
    chars d = w.map (copied id) := by
  obtain ⟨r, hdecodes, hd⟩ := decodes_of_decode hnul h
  have hascii := isAscii_of_utf8 hdecodes.ascii
  have hcopied : ∀ c : Char, IsAscii c → IsAscii (copied id c) := by
    intro c hc
    rw [copied]
    split_ifs
    · decide
    · exact hc
  have hmap : ∀ c ∈ w.map (copied id), IsAscii c := by
    intro c hc
    obtain ⟨a, ha, rfl⟩ := List.mem_map.mp hc
    exact hcopied a (hascii a ha)
  have hr : r = utf8 (w.map (copied id)) := by
    rw [hdecodes.copied fun hmem => hpercent ((utf8_asciiCompatible.mem_iff (by decide) w).mp hmem),
      utf8, utf8, List.flatMap_map, List.map_flatMap]
    exact List.flatMap_congr fun c _ => copied_flatMap utf8_asciiCompatible c
  have hzero : nul ∉ w.map (copied id) := by
    intro hmem
    obtain ⟨c, hc, heq⟩ := List.mem_map.mp hmem
    rw [copied] at heq
    split_ifs at heq
    · exact absurd heq (by decide)
    · exact hnul (heq ▸ hc)
  have hmark : (w.map (copied id)).head? ≠ some byteOrderMark :=
    fun hhead => absurd (hmap _ (List.mem_of_head? hhead)) (by decide)
  rw [hd, hr, cBytes_utf8 hzero, decodeFrom_utf8, skipMark_eq_iff.mpr hmark]

end Twice

section Bang

def shownChars (q : QString) : List Char := (chars q).takeWhile (· ≠ nul)

def bangSegments (path : List QString) : List (List Char) :=
  ((['/'].intercalate (['!'] :: path.map shownChars)).splitOn '/').filter (· ≠ [])

variable {path : List QString} {segments : List QString} {w : List Char}

theorem shownChars_spec (q : QString) : nul ∉ shownChars q ∧ (shownChars q).Sublist (chars q) := by
  refine ⟨fun hmem => ?_, List.takeWhile_sublist _⟩
  simpa using List.mem_takeWhile_imp hmem

theorem mem_bangSegments (h : w ∈ bangSegments path) : '/' ∉ w ∧ w ≠ [] ∧
    (w = ['!'] ∨ ∃ q ∈ path, w.Sublist (shownChars q)) := by
  rw [bangSegments, List.mem_filter, splitOn_intercalate_flatMap _ (List.cons_ne_nil _ _),
    List.mem_flatMap] at h
  obtain ⟨⟨l, hl, hw⟩, hne⟩ := h
  obtain ⟨hslash, hsub⟩ := mem_splitOn hw
  refine ⟨hslash, of_decide_eq_true hne, ?_⟩
  rcases List.mem_cons.mp hl with rfl | hmem
  · have hsplit : ['!'].splitOn '/' = [['!']] := by decide
    rw [hsplit] at hw
    exact Or.inl (List.mem_singleton.mp hw)
  · obtain ⟨q, hq, rfl⟩ := List.mem_map.mp hmem
    exact Or.inr ⟨q, hq, hsub⟩

theorem nul_notMem_bangSegments (h : w ∈ bangSegments path) : nul ∉ w := by
  obtain ⟨-, -, rfl | ⟨q, -, hsub⟩⟩ := mem_bangSegments h
  · decide
  · exact fun hmem => (shownChars_spec q).1 (hsub.mem hmem)

theorem length_eq_counts (l : List QString) :
    l.length = pushes setUriKind l + pops setUriKind l := by
  have hkinds : ∀ s, setUriKind s = .push ∨ setUriKind s = .pop := by
    intro s
    rw [setUriKind]
    split_ifs <;> simp
  induction l with
  | nil => rfl
  | cons s l ih =>
    rw [List.length_cons, (counts_cons s l).1, (counts_cons s l).2, ih]
    rcases hkinds s with hkind | hkind
    · rw [hkind]
      simp
      omega
    · rw [hkind]
      simp
      omega

theorem removeParents_spec (h : removeParents segments = some path) :
    (∃ n, segments.length = path.length + 2 * n) ∧ ∀ q ∈ path, q ∈ segments := by
  rw [removeParents, removeFrom_zero, normalise] at h
  obtain ⟨stack, hrun, rfl⟩ := Option.map_eq_some_iff.mp h
  have hlength := length_run hrun
  rw [List.length_nil, zero_add] at hlength
  refine ⟨⟨pops setUriKind segments, ?_⟩, fun q hq => ?_⟩
  · rw [length_eq_counts, List.length_reverse]
    omega
  · rcases mem_run hrun q (List.mem_reverse.mp hq) with hnil | ⟨hmem, -⟩
    · cases hnil
    · exact hmem

/-- A path that comes out as it was has no escape left in it, as the longest segment with one
would come from a longer one. -/
theorem percent_notMem (hread : (bangSegments path).mapM (fun w => decode (utf16 w)) = .ok segments)
    (hpath : ∀ q ∈ path, q ∈ segments) : ∀ q ∈ path, '%' ∉ chars q := by
  by_contra hsome
  obtain ⟨front, q, back, hsplit, -, hq⟩ := exists_first hsome
  have hne : (path.toFinset.filter fun q => '%' ∈ chars q).Nonempty := by
    refine ⟨q, Finset.mem_filter.mpr ⟨List.mem_toFinset.mpr ?_, not_not.mp hq⟩⟩
    rw [hsplit]
    simp
  obtain ⟨longest, hmem, hmax⟩ := Finset.exists_max_image _ (fun q => (chars q).length) hne
  rw [Finset.mem_filter, List.mem_toFinset] at hmem
  obtain ⟨w, hw, hdecode⟩ := exists_of_forall₂ (mapM_ok_iff.mp hread) (hpath longest hmem.1)
  obtain ⟨hpercent, hshorter⟩ := shorter (nul_notMem_bangSegments hw) hdecode hmem.2
  obtain ⟨-, -, rfl | ⟨q', hq', hsub⟩⟩ := mem_bangSegments hw
  · exact absurd hpercent (by decide)
  · have hsub := hsub.trans (shownChars_spec q').2
    have hle := hmax q' (Finset.mem_filter.mpr ⟨List.mem_toFinset.mpr hq', hsub.mem hpercent⟩)
    have hlength := hsub.length_le
    omega

theorem bangSegments_plain
    (h : ∀ q ∈ path, ∃ w, nul ∉ w ∧ '/' ∉ w ∧ w ≠ [] ∧ chars q = w.map (copied id)) :
    bangSegments path = ['!'] :: path.map chars := by
  have hcopied : ∀ (w : List Char) (c : Char), c ≠ ' ' → c ∉ w → c ∉ w.map (copied id) := by
    intro w c hspace hc hmem
    obtain ⟨a, ha, heq⟩ := List.mem_map.mp hmem
    rw [copied] at heq
    split_ifs at heq
    · exact hspace heq.symm
    · exact hc (heq ▸ ha)
  have hchars : ∀ q ∈ path, shownChars q = chars q ∧ '/' ∉ chars q ∧ chars q ≠ [] := by
    intro q hq
    obtain ⟨w, hnul, hslash, hne, heq⟩ := h q hq
    have hzero : nul ∉ chars q := heq ▸ hcopied w nul (by decide) hnul
    refine ⟨List.takeWhile_eq_self_iff.mpr fun c hc => ?_, ?_, ?_⟩
    · rw [decide_eq_true_iff]
      rintro rfl
      exact hzero hc
    · exact heq ▸ hcopied w '/' (by decide) hslash
    · rw [heq]
      simpa using hne
  have hshown : path.map shownChars = path.map chars :=
    List.map_congr_left fun q hq => (hchars q hq).1
  rw [bangSegments, hshown, List.splitOn_intercalate '/' ?_ (List.cons_ne_nil _ _),
    List.filter_eq_self]
  · refine List.forall_mem_cons.mpr ⟨rfl, fun l hl => ?_⟩
    obtain ⟨q, hq, rfl⟩ := List.mem_map.mp hl
    simpa using (hchars q hq).2.2
  · refine List.forall_mem_cons.mpr ⟨by decide, fun l hl => ?_⟩
    obtain ⟨q, hq, rfl⟩ := List.mem_map.mp hl
    exact (hchars q hq).2.1

theorem removeParents_bang
    (hread : (bangSegments path).mapM (fun w => decode (utf16 w)) = .ok segments) :
    removeParents segments ≠ some path := by
  intro hsame
  obtain ⟨⟨n, hlength⟩, hpath⟩ := removeParents_spec hsame
  have hpercent := percent_notMem hread hpath
  have hplain : ∀ q ∈ path, ∃ w, nul ∉ w ∧ '/' ∉ w ∧ w ≠ [] ∧ chars q = w.map (copied id) := by
    intro q hq
    obtain ⟨w, hw, hdecode⟩ := exists_of_forall₂ (mapM_ok_iff.mp hread) (hpath q hq)
    have hnul := nul_notMem_bangSegments hw
    obtain ⟨hslash, hne, hfrom⟩ := mem_bangSegments hw
    have hescape : '%' ∉ w := by
      rcases hfrom with rfl | ⟨q', hq', hsub⟩
      · decide
      · exact fun hmem => hpercent q' hq' ((hsub.trans (shownChars_spec q').2).mem hmem)
    exact ⟨w, hnul, hslash, hne, decode_plain hnul hdecode hescape⟩
  have hcount := (mapM_ok_iff.mp hread).length_eq
  rw [bangSegments_plain hplain, List.length_cons, List.length_map] at hcount
  omega

end Bang

theorem cBytes_toUtf8 (q : QString) : cBytes (toUtf8 q) = utf8 (shownChars q) := by
  have hsplit : chars q = shownChars q ++ (chars q).dropWhile (· ≠ nul) :=
    (List.takeWhile_append_dropWhile).symm
  have hfront : ∀ b ∈ utf8 (shownChars q), decide (b ≠ 0) = true := by
    intro b hb
    rw [decide_eq_true_iff]
    rintro rfl
    exact (shownChars_spec q).1 ((utf8_asciiCompatible.mem_iff (by decide) _).mp hb)
  have hrest : (utf8 ((chars q).dropWhile (· ≠ nul))).takeWhile (· ≠ 0) = [] := by
    cases hdrop : (chars q).dropWhile (· ≠ nul) with
    | nil => rfl
    | cons c rest =>
      have hhead := List.head?_dropWhile_not (fun c => decide (c ≠ nul)) (chars q)
      rw [hdrop] at hhead
      have hc : c = nul := by simpa using hhead
      rw [hc]
      rfl
  have hbytes : toUtf8 q = utf8 (shownChars q) ++ utf8 ((chars q).dropWhile (· ≠ nul)) := by
    rw [toUtf8, hsplit, utf8, List.flatMap_append, ← hsplit]
    rfl
  rw [cBytes, hbytes, List.takeWhile_append_of_pos hfront]
  exact (congrArg (utf8 (shownChars q) ++ ·) hrest).trans (List.append_nil _)

def pathBytes (path : List QString) : Bytes :=
  [47].intercalate (path.map fun q => encodeBytes [126] (utf8 (shownChars q)))

theorem isLiteral_tilde : ∀ c ∈ ([126] : Bytes), isLiteral c = true := by
  simp [isLiteral]

theorem encodedPath_eq (o : SnapUri) : encodedPath o = (pathBytes o.path).map UInt8.toUInt16 := by
  have hflat : ∀ b : Bytes, b.map UInt8.toUInt16 = b.flatMap fun c => [c.toUInt16] :=
    fun b => List.map_eq_flatMap
  rw [pathBytes, hflat, flatMap_intercalate (f := fun c : UInt8 => [c.toUInt16]) (y := slash) rfl,
    encodedPath, List.map_map]
  refine congrArg _ (List.map_congr_left fun q _ => ?_)
  rw [urlencode, cBytes_toUtf8, Function.comp_apply, hflat]

theorem pathBytes_ascii (path : List QString) : ∀ c ∈ pathBytes path, c ≠ 0 ∧ c.toNat < 128 := by
  intro c hc
  rcases mem_intercalate hc with ⟨p, hp, hmem⟩ | hsep
  · obtain ⟨q, _, rfl⟩ := List.mem_map.mp hp
    exact encodeBytes_ascii isLiteral_tilde hmem
  · obtain rfl := List.mem_singleton.mp hsep
    decide

theorem decodeBytes_pathBytes (path : List QString) : decodeBytes false 0 (pathBytes path) =
    .ok (utf8 (['/'].intercalate (path.map shownChars))) := by
  have hslash : utf8Char '/' = [47] := by decide
  rw [utf8, flatMap_intercalate hslash, List.map_map, pathBytes]
  induction path with
  | nil => rfl
  | cons q path ih =>
    cases path with
    | nil =>
      simpa [List.intercalate, utf8] using
        decodeBytes_encodeBytes isLiteral_tilde (utf8 (shownChars q))
    | cons q' path =>
      have hcons : ∀ (f : QString → Bytes), ([47] : Bytes).intercalate ((q :: q' :: path).map f) =
          f q ++ 47 :: ([47] : Bytes).intercalate ((q' :: path).map f) := by
        intro f
        simp [List.intercalate]
      rw [hcons, hcons, decodeBytes_append isLiteral_tilde, decodeBytes_literal (by decide), ih]
      rfl

/-- The text that is read from the anchor of a path. -/
theorem decode_bang {o : SnapUri} (hpath : o.path ≠ []) :
    decode (exclamation :: slash :: encodedPath o) =
      .ok (utf16 (['/'].intercalate (['!'] :: o.path.map shownChars))) := by
  have hascii := pathBytes_ascii o.path
  have hbytes : ∀ c ∈ 33 :: 47 :: pathBytes o.path, c ≠ 0 ∧ c.toNat < 128 :=
    List.forall_mem_cons.mpr ⟨by decide, List.forall_mem_cons.mpr ⟨by decide, hascii⟩⟩
  have htext : exclamation :: slash :: encodedPath o =
      (33 :: 47 :: pathBytes o.path).map UInt8.toUInt16 := by
    rw [encodedPath_eq]
    rfl
  have hcons : ['/'].intercalate (['!'] :: o.path.map shownChars) =
      '!' :: '/' :: ['/'].intercalate (o.path.map shownChars) := by
    obtain ⟨q, path, hq⟩ := List.exists_cons_of_ne_nil hpath
    rw [hq]
    simp [List.intercalate]
  have hnul : nul ∉ ['/'].intercalate (['!'] :: o.path.map shownChars) := by
    intro hmem
    rcases mem_intercalate hmem with ⟨l, hl, hmem⟩ | hsep
    · rcases List.mem_cons.mp hl with rfl | hl
      · exact absurd hmem (by decide)
      · obtain ⟨q, _, rfl⟩ := List.mem_map.mp hl
        exact (shownChars_spec q).1 hmem
    · exact absurd hsep (by decide)
  have hdecoded : decodeBytes false 0 (33 :: 47 :: pathBytes o.path) =
      .ok (utf8 (['/'].intercalate (['!'] :: o.path.map shownChars))) := by
    rw [decodeBytes_literal (by decide), decodeBytes_literal (by decide), decodeBytes_pathBytes,
      hcons]
    rfl
  have hurl : urldecode (exclamation :: slash :: encodedPath o) false =
      .ok (utf16 (['/'].intercalate (['!'] :: o.path.map shownChars))) := by
    rw [urldecode, htext, toUtf8_map fun c hc => (hbytes c hc).2,
      cBytes_of_notMem fun hzero => (hbytes 0 hzero).1 rfl, hdecoded]
    simp only [cBytes_utf8 hnul, fromUtf8_utf8]
    rw [hcons, skipMark, if_neg (by decide)]
  rw [decode, hurl]

section Parse

theorem parseParameters_end (query : Query) (place : Place) {u : QString}
    (hu : u = [] ∨ u.head? = some hash) :
    parseParameters query place u = (storeAt query place).map (·, u) := by
  cases u with
  | nil => rw [parseParameters.eq_def]
  | cons c u =>
    have hc : c = hash := by simpa using hu
    rw [parseParameters.eq_def]
    simp only [if_pos hc]

theorem parseParameters_ampersand (query : Query) (place : Place) (u : QString) :
    parseParameters query place (ampersand :: u) =
      (storeAt query place).bind fun query => parseParameters query .between u := by
  rw [parseParameters.eq_def]
  simp only [if_neg (by decide : ampersand ≠ hash), if_true]
  rfl

def nextPlace (c : UInt16) : Place → Place
  | .between => .name [c]
  | .name s => if c = equals then .value s [] else .name (s ++ [c])
  | .value s e => .value s (e ++ [c])

theorem parseParameters_next (query : Query) (place : Place) {c : UInt16} (hhash : c ≠ hash)
    (hampersand : c ≠ ampersand) (u : QString) :
    parseParameters query place (c :: u) = parseParameters query (nextPlace c place) u := by
  rw [parseParameters.eq_def]
  simp only [if_neg hhash, if_neg hampersand]
  cases place with
  | between => rfl
  | name s =>
    simp only [nextPlace]
    split_ifs <;> rfl
  | value s e => rfl

theorem parseParameters_rest {query m : Query} {place : Place} {u r : QString}
    (h : parseParameters query place u = .ok (m, r)) : r = u.dropWhile (· ≠ hash) := by
  have hend : ∀ {query place u}, (storeAt query place).map (·, u) = .ok (m, r) → r = u := by
    intro query place u h
    cases hstore : storeAt query place with
    | error e =>
      rw [hstore] at h
      cases h
    | ok query' =>
      rw [hstore] at h
      cases h
      rfl
  induction u generalizing query place with
  | nil =>
    rw [parseParameters_end query place (Or.inl rfl)] at h
    exact hend h
  | cons c u ih =>
    by_cases hhash : c = hash
    · have hhead : (c :: u).head? = some hash := congrArg some hhash
      rw [parseParameters_end query place (Or.inr hhead)] at h
      rw [List.dropWhile_cons_of_neg (by simpa using hhash)]
      exact hend h
    · rw [List.dropWhile_cons_of_pos (by simpa using hhash)]
      by_cases hampersand : c = ampersand
      · rw [hampersand, parseParameters_ampersand] at h
        cases hstore : storeAt query place with
        | error e =>
          rw [hstore] at h
          cases h
        | ok query' =>
          rw [hstore] at h
          exact ih h
      · rw [parseParameters_next query place hhash hampersand] at h
        exact ih h

variable {query bang : QString}

theorem dropWhile_ampersand {q : QString} (hq : hash ∉ q)
    (hbang : bang = [] ∨ bang.head? = some hash) :
    ((q ++ bang).dropWhile (· = ampersand)).dropWhile (· ≠ hash) = bang := by
  induction q with
  | nil =>
    cases bang with
    | nil => rfl
    | cons c bang =>
      have hc : c = hash := by simpa using hbang
      rw [hc]
      rfl
  | cons c q ih =>
    rw [List.mem_cons, not_or] at hq
    by_cases hand : c = ampersand
    · rw [List.cons_append, List.dropWhile_cons_of_pos (by simpa using hand)]
      exact ih hq.2
    · rw [List.cons_append, List.dropWhile_cons_of_neg (by simpa using hand),
        List.dropWhile_cons_of_pos (by simpa using fun heq : c = hash => hq.1 heq.symm)]
      exact (takeWhile_ne_append hq.2 hbang).2

/-- The path of a URI without one before its query string is what its anchor adds. -/
theorem parseRest_bang {r : Rest} (hquery : query = [] ∨ ∃ q, query = question :: q ∧ hash ∉ q)
    (hbang : bang = [] ∨ bang.head? = some hash)
    (h : parseRest (slash :: (query ++ bang)) = .ok r) :
    ∃ more anchor, parseAnchor bang = .ok (more, anchor) ∧ removeParents more = some r.path := by
  have hpath : parsePath (slash :: (query ++ bang)) = .ok ([], query ++ bang) := by
    have hstop : (query ++ bang).takeWhile (fun c => c ≠ question ∧ c ≠ hash) = [] ∧
        (query ++ bang).dropWhile (fun c => c ≠ question ∧ c ≠ hash) = query ++ bang := by
      rcases hquery with rfl | ⟨q, rfl, -⟩
      · cases bang with
        | nil => exact ⟨rfl, rfl⟩
        | cons c bang =>
          have hc : c = hash := by simpa using hbang
          subst hc
          exact ⟨rfl, rfl⟩
      · exact ⟨rfl, rfl⟩
    have hnone : decodeSegments [] = .ok [] := rfl
    rw [parsePath]
    simp only [List.tail_cons]
    rw [hstop.1, hstop.2, hnone]
  rw [parseRest, hpath] at h
  simp only [bind, Except.bind] at h
  cases hparse : parseQuery (query ++ bang) with
  | error e =>
    rw [hparse] at h
    cases h
  | ok found =>
    obtain ⟨m, u⟩ := found
    have hu : u = bang := by
      rcases hquery with rfl | ⟨q, rfl, hq⟩
      · have hne : bang.head? ≠ some question := by
          rcases hbang with rfl | hhash
          · simp
          · rw [hhash]
            decide
        rw [List.nil_append, parseQuery, if_neg hne] at hparse
        cases hparse
        rfl
      · have hhead : (question :: (q ++ bang)).head? = some question := rfl
        rw [List.cons_append, parseQuery, if_pos hhead, List.tail_cons] at hparse
        rw [parseParameters_rest hparse, dropWhile_ampersand hq hbang]
    rw [hparse, hu] at h
    simp only at h
    cases hanchor : parseAnchor bang with
    | error e =>
      rw [hanchor] at h
      cases h
    | ok found =>
      obtain ⟨more, anchor⟩ := found
      rw [hanchor] at h
      simp only [List.nil_append] at h
      cases hparents : removeParents more with
      | none =>
        rw [hparents] at h
        cases h
      | some path =>
        rw [hparents] at h
        exact ⟨more, anchor, rfl, by rw [← Except.ok.inj h]; exact hparents⟩

theorem decodeSegments_utf16 (cs : List Char) : decodeSegments (utf16 cs) =
    ((cs.splitOn '/').filter (· ≠ [])).mapM fun w => decode (utf16 w) := by
  obtain ⟨ps, hne, hps, rfl⟩ := exists_pieces '/' cs
  have hslash : utf16Char '/' = [slash] := by decide
  have hother : ∀ c, c ≠ '/' → slash ∉ utf16Char c := by
    intro c hc hmem
    exact hc ((utf16_asciiCompatible.mem_char (by decide : IsAscii '/')).mp hmem).symm
  have hempty : ∀ w : List Char, decide (utf16 w ≠ []) = decide (w ≠ []) := by
    intro w
    cases w with
    | nil => rfl
    | cons c w =>
      have hcons : utf16 (c :: w) ≠ [] := by
        rw [utf16_cons]
        simpa using fun h => absurd h (utf16_asciiCompatible.ne_nil c)
      simp [hcons]
  rw [List.splitOn_intercalate '/' hps hne, decodeSegments, skipEmptyParts, splitSlash, utf16,
    splitOn_flatMap hslash hother hne hps, List.filter_map, List.mapM_map]
  have hfilter : ps.filter ((fun s => decide (s ≠ [])) ∘ fun w => w.flatMap utf16Char) =
      ps.filter fun w => decide (w ≠ []) :=
    List.filter_congr fun w _ => hempty w
  rw [hfilter]
  rfl

end Parse

section Uri

variable {sys : System} {o : SnapUri}

/-- A character that no code is written with. -/
structure Foreign (d : UInt8) : Prop where
  percent : d ≠ percent
  plain : isUnreserved d = false
  accepted : d ∉ ([126, 44] : Bytes)
  mark : d.toUInt16 ∉ [colon, slash, question, ampersand, equals, atSign, 45]
  digit : isDigit d.toUInt16 = false

variable {d : UInt8} {p : Parts}

theorem Foreign.urlencode (h : Foreign d) {accepted : Bytes} (hsub : ∀ c ∈ accepted, c ∈ [126, 44])
    (s : QString) : d.toUInt16 ∉ UrlCode.urlencode s accepted :=
  notMem_urlencode h.percent h.plain (fun hmem => h.accepted (hsub d hmem)) s

theorem Foreign.queryString (h : Foreign d) (o : SnapUri) : d.toUInt16 ∉ queryString o := by
  have hmark := h.mark
  simp only [List.mem_cons, List.not_mem_nil, or_false, not_or] at hmark
  have hfold : ∀ (entries : List (QString × QString)) (result : QString), d.toUInt16 ∉ result →
      d.toUInt16 ∉ entries.foldl (fun result e =>
        (if result = [] then [] else result ++ [ampersand]) ++ UrlCode.urlencode e.1 [] ++
          (if e.2 = [] then [] else equals :: UrlCode.urlencode e.2 [44])) result := by
    intro entries
    induction entries with
    | nil => exact fun result hresult => hresult
    | cons e entries ih =>
      intro result hresult
      refine ih _ ?_
      rw [List.mem_append, List.mem_append, not_or, not_or]
      refine ⟨⟨?_, h.urlencode (by simp) e.1⟩, ?_⟩
      · split_ifs
        · simp
        · simpa using ⟨hresult, hmark.2.2.2.1⟩
      · split_ifs
        · simp
        · rw [List.mem_cons, not_or]
          exact ⟨hmark.2.2.2.2.1, h.urlencode (by simp) e.2⟩
  exact hfold o.queryStrings.entries [] (by simp)

theorem foreign_zero : Foreign 0 where
  percent := by decide
  plain := by decide
  accepted := by decide
  mark := by decide
  digit := by decide

theorem foreign_hash : Foreign 35 where
  percent := by decide
  plain := by decide
  accepted := by decide
  mark := by decide
  digit := by decide

def writtenAuthority (sys : System) (o : SnapUri) : QString :=
  (if o.username = [] then []
    else urlencode o.username [] ++
      (if o.password = [] then [] else colon :: urlencode o.password []) ++ [atSign]) ++
    urlencode (fullDomain o) [] ++
    (if o.port = protocolToPort sys o.protocol then [] else colon :: portNumber o.port)

theorem notMem_writtenAuthority (hpercent : d ≠ percent) (hplain : isUnreserved d = false)
    (hmark : d.toUInt16 ∉ [colon, atSign, 45]) (hdigit : isDigit d.toUInt16 = false) :
    d.toUInt16 ∉ writtenAuthority sys o := by
  simp only [List.mem_cons, List.not_mem_nil, or_false, not_or] at hmark
  have hcode : ∀ s, d.toUInt16 ∉ urlencode s [] := notMem_urlencode hpercent hplain (by simp)
  have hdecimal : ∀ n, d.toUInt16 ∉ decimal n := by
    intro n hmem
    rw [isDigit_of_mem_decimal n _ hmem] at hdigit
    cases hdigit
  have hnumber : d.toUInt16 ∉ portNumber o.port := by
    rw [portNumber]
    split_ifs
    · rw [List.mem_cons, not_or]
      exact ⟨hmark.2.2, hdecimal _⟩
    · exact hdecimal _
  rw [writtenAuthority, List.mem_append, List.mem_append, not_or, not_or]
  refine ⟨⟨?_, hcode _⟩, ?_⟩
  · split_ifs
    · simp
    · simpa using ⟨hcode o.username, hmark.2.1⟩
    · simpa using ⟨hcode o.username, hmark.1, hcode o.password, hmark.2.1⟩
  · split_ifs
    · simp
    · rw [List.mem_cons, not_or]
      exact ⟨hmark.1, hnumber⟩

def writtenQuery (o : SnapUri) : QString :=
  if queryString o = [] then [] else question :: queryString o

def writtenBang (o : SnapUri) : QString :=
  if encodedPath o = [] then [] else hash :: exclamation :: slash :: encodedPath o

theorem getUri_bang (hanchor : o.anchor = []) : getUri sys o true =
    some (o.protocol ++ [colon, slash, slash] ++ writtenAuthority sys o ++
      slash :: (writtenQuery o ++ writtenBang o)) := by
  rw [getUri, writtenQuery, writtenBang]
  simp only [hanchor, if_true, writtenAuthority]
  by_cases hpath : encodedPath o = []
  · simp [hpath]
  · simp [hpath]

theorem setUri_path {o' : SnapUri} {uri : QString} (h : (setUri sys o' uri).1 = .ok ()) :
    ∃ p, parse sys uri = .ok p ∧ (setUri sys o' uri).2.path = p.rest.path := by
  cases hp : parse sys uri with
  | error e =>
    rw [setUri_error hp] at h
    cases h
  | ok p =>
    refine ⟨p, rfl, ?_⟩
    cases hname : decode p.server.username with
    | error e =>
      rw [setUri, hp] at h
      simp only [hname] at h
      cases h
    | ok name =>
      cases hword : decode p.server.password with
      | error e =>
        rw [setUri, hp] at h
        simp only [hname, hword] at h
        cases h
      | ok word =>
        rw [setUri_ok hp hname hword]
        rfl

def KeepsPath (sys : System) (o o' : SnapUri) : Prop :=
  ∃ uri, getUri sys o true = some uri ∧ (setUri sys o' uri).1 = .ok () ∧
    (setUri sys o' uri).2.path = o.path ∧ (setUri sys o' uri).2.queryStrings = o.queryStrings

theorem parse_protocol {uri : QString} (h : parse sys uri = .ok p) :
    (cString uri).takeWhile (· ≠ colon) ≠ [] ∧ colon ∈ cString uri := by
  have hprotocol : ¬ ((cString uri).takeWhile (· ≠ colon) = [] ∨
      ¬ [colon, slash, slash] <+: (cString uri).dropWhile (· ≠ colon)) := by
    intro hbad
    rw [parse] at h
    simp only at h
    rw [if_pos hbad] at h
    cases h
  rw [not_or, not_not] at hprotocol
  refine ⟨hprotocol.1, ?_⟩
  have hmem : colon ∈ (cString uri).dropWhile (· ≠ colon) :=
    hprotocol.2.subset List.mem_cons_self
  exact (List.dropWhile_sublist _).mem hmem

/-- The protocol that is written is the one that is read. -/
theorem protocol_of_parse {protocol rest : QString} (hcolon : colon ∉ protocol)
    (h : parse sys (protocol ++ colon :: rest) = .ok p) : protocol ≠ [] ∧ 0 ∉ protocol := by
  obtain ⟨hne, hmem⟩ := parse_protocol h
  constructor
  · rintro rfl
    exact hne rfl
  · intro hzero
    have hhead : (protocol.dropWhile (· ≠ 0)).head? = some 0 := by
      have hnot := List.head?_dropWhile_not (fun c : UInt16 => decide (c ≠ 0)) protocol
      cases hdrop : protocol.dropWhile (· ≠ 0) with
      | nil =>
        have hall := List.dropWhile_eq_nil_iff.mp hdrop 0 hzero
        simp at hall
      | cons c back =>
        rw [hdrop] at hnot
        have hc : c = 0 := by simpa using hnot
        exact congrArg some hc
    have hsplit : protocol ++ colon :: rest =
        protocol.takeWhile (· ≠ 0) ++ (protocol.dropWhile (· ≠ 0) ++ colon :: rest) := by
      rw [← List.append_assoc, List.takeWhile_append_dropWhile]
    have hfront : (0 : UInt16) ∉ protocol.takeWhile (· ≠ 0) := by
      intro hin
      simpa using List.mem_takeWhile_imp hin
    have hrest : (protocol.dropWhile (· ≠ 0) ++ colon :: rest).head? = some 0 := by
      rw [List.head?_append, hhead]
      rfl
    rw [cString, hsplit, (takeWhile_ne_append hfront (Or.inr hrest)).1] at hmem
    exact hcolon ((List.takeWhile_sublist _).mem hmem)

theorem parseAnchor_bang (hpath : o.path ≠ []) :
    parseAnchor (hash :: exclamation :: slash :: encodedPath o) =
      ((bangSegments o.path).mapM fun w => decode (utf16 w)).map (·, []) := by
  have hnul : ∀ l ∈ ['!'] :: o.path.map shownChars, nul ∉ l := by
    refine List.forall_mem_cons.mpr ⟨by decide, fun l hl => ?_⟩
    obtain ⟨q, _, rfl⟩ := List.mem_map.mp hl
    exact (shownChars_spec q).1
  have hzero : 0 ∉ utf16 (['/'].intercalate (['!'] :: o.path.map shownChars)) := by
    intro hmem
    have hin := (utf16_asciiCompatible.mem_iff (by decide : IsAscii nul) _).mp hmem
    rcases mem_intercalate hin with ⟨l, hl, hin⟩ | hsep
    · exact hnul l hl hin
    · exact absurd hsep (by decide)
  have hhead : (utf16 (['/'].intercalate (['!'] :: o.path.map shownChars))).head? =
      some exclamation := by
    obtain ⟨q, path, hq⟩ := List.exists_cons_of_ne_nil hpath
    have hcons : ['/'].intercalate (['!'] :: (q :: path).map shownChars) =
        '!' :: '/' :: ['/'].intercalate ((q :: path).map shownChars) := by
      simp [List.intercalate]
    rw [hq, hcons]
    rfl
  have hanchor : (hash :: exclamation :: slash :: encodedPath o).head? = some hash := rfl
  have hsegments : decodeSegments (utf16 (['/'].intercalate (['!'] :: o.path.map shownChars))) =
      (bangSegments o.path).mapM fun w => decode (utf16 w) := decodeSegments_utf16 _
  rw [parseAnchor, if_pos hanchor, List.tail_cons, decode_bang hpath]
  simp only [bind, Except.bind]
  rw [if_pos hhead, cString_of_notMem hzero, hsegments]
  cases (bangSegments o.path).mapM fun w => decode (utf16 w) <;> rfl

theorem writtenQuery_cases (o : SnapUri) : writtenQuery o = [] ∨
    ∃ q, writtenQuery o = question :: q ∧ hash ∉ q := by
  rw [writtenQuery]
  split_ifs
  · exact Or.inl rfl
  · exact Or.inr ⟨_, rfl, foreign_hash.queryString o⟩

theorem head_writtenBang (o : SnapUri) :
    writtenBang o = [] ∨ (writtenBang o).head? = some hash := by
  rw [writtenBang]
  split_ifs
  · exact Or.inl rfl
  · exact Or.inr rfl

theorem zero_notMem_written (h : 0 ∉ o.protocol) : 0 ∉ o.protocol ++ [colon, slash, slash] ++
    writtenAuthority sys o ++ slash :: (writtenQuery o ++ writtenBang o) := by
  have hauthority : 0 ∉ writtenAuthority sys o :=
    notMem_writtenAuthority (d := 0) (by decide) (by decide) (by decide) (by decide)
  have hquery : 0 ∉ writtenQuery o := by
    rw [writtenQuery]
    split_ifs
    · simp
    · rw [List.mem_cons, not_or]
      exact ⟨by decide, foreign_zero.queryString o⟩
  have hpath : 0 ∉ encodedPath o := by
    rw [encodedPath_eq]
    intro hmem
    obtain ⟨c, hc, heq⟩ := List.mem_map.mp hmem
    have hnat := congrArg UInt16.toNat heq
    exact (pathBytes_ascii o.path c hc).1 (UInt8.toNat_inj.mp (by simpa using hnat))
  have hbang : 0 ∉ writtenBang o := by
    rw [writtenBang]
    split_ifs
    · simp
    · simpa [hash, exclamation, slash] using hpath
  simp only [List.mem_append, List.mem_cons, List.not_mem_nil, or_false, not_or]
  exact ⟨⟨⟨h, by decide, by decide, by decide⟩, hauthority⟩, by decide, hquery, hbang⟩

/-- What is read of a URI with a hash bang behind its server. -/
theorem parseRest_of_parse (hprotocol : colon ∉ o.protocol)
    (h : parse sys (o.protocol ++ [colon, slash, slash] ++ writtenAuthority sys o ++
      slash :: (writtenQuery o ++ writtenBang o)) = .ok p) :
    parseRest (slash :: (writtenQuery o ++ writtenBang o)) = .ok p.rest := by
  have hstart := h
  rw [List.append_assoc, List.append_assoc, List.cons_append] at hstart
  obtain ⟨hne, hnul⟩ := protocol_of_parse hprotocol hstart
  rw [parse_written (zero_notMem_written hnul) hne hprotocol
    (notMem_writtenAuthority (d := 47) (by decide) (by decide) (by decide) (by decide))
    (Or.inr rfl)] at h
  simp only [bind, Except.bind] at h
  cases hserver : parseServer sys o.protocol (writtenAuthority sys o) with
  | error e =>
    rw [hserver] at h
    cases h
  | ok server =>
    rw [hserver] at h
    cases hrest : parseRest (slash :: (writtenQuery o ++ writtenBang o)) with
    | error e =>
      rw [hrest] at h
      cases h
    | ok r =>
      rw [hrest] at h
      rw [← Except.ok.inj h]

theorem writtenBang_ne {more : List QString} {anchor : QString} (hpath : o.path ≠ [])
    (h : parseAnchor (writtenBang o) = .ok (more, anchor)) : removeParents more ≠ some o.path := by
  intro hsame
  by_cases hempty : encodedPath o = []
  · rw [writtenBang, if_pos hempty] at h
    cases h
    obtain ⟨⟨n, hlength⟩, -⟩ := removeParents_spec hsame
    have hzero : o.path.length = 0 := by
      rw [List.length_nil] at hlength
      omega
    exact hpath (List.length_eq_zero_iff.mp hzero)
  · rw [writtenBang, if_neg hempty, parseAnchor_bang hpath] at h
    cases hread : (bangSegments o.path).mapM fun w => decode (utf16 w) with
    | error e =>
      rw [hread] at h
      cases h
    | ok segments =>
      rw [hread] at h
      cases h
      exact removeParents_bang hread hsame

/-- No URI with a hash bang gives the path back that it was written for. -/
theorem not_keepsPath (hprotocol : colon ∉ o.protocol) (hpath : o.path ≠ [])
    (hanchor : o.anchor = [])
    (o' : SnapUri) : ¬ KeepsPath sys o o' := by
  rintro ⟨uri, huri, hok, hsame, -⟩
  obtain ⟨p, hp, hfound⟩ := setUri_path hok
  rw [getUri_bang hanchor] at huri
  obtain rfl := Option.some.inj huri
  obtain ⟨more, anchor, hmore, hparents⟩ := parseRest_bang (writtenQuery_cases o)
    (head_writtenBang o) (parseRest_of_parse hprotocol hp)
  rw [← hfound, hsame] at hparents
  exact writtenBang_ne hpath hmore hparents

def oneSegment : SnapUri where
  domain := ascii "example"
  topLevelDomain := ascii ".com"
  path := [ascii "a"]

theorem not_keepsPath_one : ¬ KeepsPath oneDomain oneSegment {} :=
  not_keepsPath (by decide) (by decide) rfl {}

/-- The exclamation mark is a segment of the path that is read. -/
theorem bang_segment : getUri oneDomain oneSegment true = some (ascii "http://example.com/#!/a") ∧
    (setUri oneDomain {} (ascii "http://example.com/#!/a")).2.path = [ascii "!", ascii "a"] ∧
    ¬ ∀ o o', o.path ≠ [] → o.anchor = [] → KeepsPath oneDomain o o' := by
  have hwritten : getUri oneDomain oneSegment true = some (ascii "http://example.com/#!/a") := by
    decide
  have hset : (setUri oneDomain {} (ascii "http://example.com/#!/a")).2.path =
      [ascii "!", ascii "a"] := by
    have hserver : parseServer oneDomain (ascii "http") (ascii "example.com") = .ok {
        username := [], password := [], port := 80, subDomains := [[]]
        domain := ascii "example", tld := ascii ".com" } := by decide
    have htext : ascii "http" ++ [colon, slash, slash] ++ ascii "example.com" ++ ascii "/#!/a" =
        ascii "http://example.com/#!/a" := by decide
    have hparse := @parse_written oneDomain (ascii "http") (ascii "example.com") (ascii "/#!/a")
      (by decide) (by decide) (by decide) (by decide) (Or.inr (by decide))
    rw [hserver, parseRest_eq, htext] at hparse
    rw [setUri, hparse]
    decide
  refine ⟨hwritten, hset, fun h => ?_⟩
  obtain ⟨uri, huri, -, hpath, -⟩ := h oneSegment {} (by decide) rfl
  obtain rfl := Option.some.inj (hwritten.symm.trans huri)
  rw [hset] at hpath
  exact absurd hpath (by decide)

end Uri

end SnapCpp.SnapUri
