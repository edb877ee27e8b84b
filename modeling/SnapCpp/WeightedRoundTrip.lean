import SnapCpp.WeightedWritten

/-!
Reading back a weighted string that was written. The text of a part is its name and its
parameters, each behind a semicolon and a space; where `QString::arg()` writes that text, it is
read back to the same parts.
-/
namespace SnapCpp.WeightedHttp

open QString Utf SimplifiedText PlaceMarkers
open QNumber (isSpace trimmed)
open SnapVersion (simplified space IsNeat simplified_of_neat)
open CacheControl (isCSpace cString endsName endsParameter comma semicolon equal)

/-- A name of a parameter, with the value that is not empty. -/
def entryText (e : QString × QString) : QString :=
  if e.2 = [] then e.1 else e.1 ++ 61 :: e.2

def paramsText (es : List (QString × QString)) : QString :=
  es.flatMap fun e => 59 :: space :: entryText e

def Part.text {α : Type*} (p : Part α) : QString := p.fName ++ paramsText p.fParam.entries

def partsText {α : Type*} : List (Part α) → QString
  | [] => []
  | [p] => p.text
  | p :: q :: ps => p.text ++ 44 :: space :: partsText (q :: ps)

def NoMark (q : QString) : Prop := q.head? ≠ some 0xFEFF

instance (q : QString) : Decidable (NoMark q) := by
  unfold NoMark
  infer_instance

section Scan

variable {p : UInt8 → Bool} {v t : List UInt8} {q : QString}

theorem takeWhile_of_end (hv : ∀ b ∈ v, p b = true) (ht : ∀ c, t.head? = some c → p c = false) :
    (v ++ t).takeWhile p = v ∧ (v ++ t).dropWhile p = t := by
  rw [List.takeWhile_append_of_pos hv, List.dropWhile_append_of_pos hv]
  cases t with
  | nil => simp
  | cons c t =>
    have hc := ht c rfl
    rw [List.takeWhile_cons_of_neg (by simp [hc]), List.dropWhile_cons_of_neg (by simp [hc]),
      List.append_nil]
    exact ⟨rfl, rfl⟩

theorem not_endsName (hq : IsText q) (hfree : Free nameStops q) :
    ∀ b ∈ toUtf8 q, (!endsName b) = true := by
  intro b hb
  have hstop (n : UInt8) (hn : n.toNat < 128) (hmem : n.toNat.toUInt16 ∈ nameStops) : b ≠ n := by
    rintro rfl
    exact hfree _ hmem (mem_of_mem_toUtf8 hq hb hn)
  simp [endsName, hstop comma (by decide) (by decide), hstop semicolon (by decide) (by decide)]

theorem not_endsParameter (hq : IsText q) (hfree : Free keyStops q) :
    ∀ b ∈ toUtf8 q, (!endsParameter b) = true := by
  intro b hb
  have hstop (n : UInt8) (hn : n.toNat < 128) (hmem : n.toNat.toUInt16 ∈ keyStops) : b ≠ n := by
    rintro rfl
    exact hfree _ hmem (mem_of_mem_toUtf8 hq hb hn)
  simp [endsParameter, endsName, hstop comma (by decide) (by decide),
    hstop semicolon (by decide) (by decide), hstop equal (by decide) (by decide)]

def Ended (t : List UInt8) : Prop := ∀ c, t.head? = some c → endsName c = true

end Scan

variable {α : Type*} (f : Floats α)

section Params

variable {e : QString × QString} {t : List UInt8} {part : Part α}

theorem GoodParam.isText (h : GoodParam e) : IsText (entryText e) := by
  unfold entryText
  split_ifs
  · exact h.key
  · exact h.key.append (h.value.ascii_cons (by decide))

/-- The name of a parameter is read back, with the space in front of it. -/
theorem paramName_written (h : GoodParam e) (ht : Ended t) :
    paramName (toUtf8 (space :: entryText e) ++ t) = e.1 ∧
      afterName (toUtf8 (space :: entryText e) ++ t) =
        (if e.2 = [] then [] else equal :: toUtf8 e.2) ++ t := by
  have hkey : IsText (space :: e.1) := h.key.ascii_cons (by decide)
  have hfree : Free keyStops (space :: e.1) := by
    intro u hu hmem
    rcases List.mem_cons.mp hmem with rfl | hmem
    · revert hu
      decide
    · exact h.keyFree u hu hmem
  have hbytes : toUtf8 (space :: entryText e) =
      toUtf8 (space :: e.1) ++ (if e.2 = [] then [] else equal :: toUtf8 e.2) := by
    unfold entryText
    split_ifs with hempty
    · rw [List.append_nil]
    · rw [← List.cons_append, toUtf8_append hkey (h.value.ascii_cons (by decide)),
        toUtf8_ascii_cons (by decide) h.value]
      rfl
  have hend : ∀ c, ((if e.2 = [] then [] else equal :: toUtf8 e.2) ++ t).head? = some c →
      (!endsParameter c) = false := by
    intro c hc
    split_ifs at hc
    · have hends := ht c hc
      simp [endsParameter, hends]
    · obtain rfl := Option.some.inj hc
      rfl
  have hscan := takeWhile_of_end (not_endsParameter hkey hfree) hend
  rw [paramName, afterName, hbytes, List.append_assoc, hscan.1, hscan.2,
    fromUtf8_toUtf8 hkey (by simp [space]), simplified_space, simplified_of_neat h.neat]
  exact ⟨rfl, rfl⟩

theorem paramValue_written (h : GoodParam e) (hmark : NoMark e.2) (ht : Ended t) :
    paramValue (toUtf8 (space :: entryText e) ++ t) = e.2 ∧
      afterParam (toUtf8 (space :: entryText e) ++ t) = t := by
  unfold paramValue afterParam
  rw [(paramName_written h ht).2]
  by_cases hempty : e.2 = []
  · rw [if_pos hempty, List.nil_append]
    have hequal : t.head? ≠ some equal := fun heq => absurd (ht _ heq) (by decide)
    rw [if_neg hequal, if_neg hequal]
    exact ⟨hempty.symm, rfl⟩
  · rw [if_neg hempty, List.cons_append, List.head?_cons, if_pos rfl, if_pos rfl, List.tail_cons]
    have hend : ∀ c, t.head? = some c → (!endsName c) = false := fun c hc => by simp [ht c hc]
    have hscan := takeWhile_of_end (not_endsName h.value h.valueFree) hend
    rw [hscan.1, hscan.2, fromUtf8_toUtf8 h.value hmark]
    exact ⟨h.ends, rfl⟩

theorem readParam_written (h : GoodParam e) (hmark : NoMark e.2) (ht : Ended t)
    (hq : e.1 = ascii "q" → ∃ level, f.toFloat e.2 = some level ∧ f.notNegative level = true) :
    ∃ level, readParam f part [] (toUtf8 (space :: entryText e) ++ t) =
      ((part.addParameter e.1 e.2).setLevel level, []) := by
  unfold readParam
  rw [(paramName_written h ht).1, (paramValue_written h hmark ht).1, if_pos h.neat.ends.1]
  dsimp only
  by_cases hkey : e.1 = ascii "q"
  · obtain ⟨level, hfloat, hpositive⟩ := hq hkey
    rw [if_pos hkey, hfloat]
    exact ⟨level, if_pos hpositive⟩
  · rw [if_neg hkey]
    exact ⟨part.fLevel, rfl⟩

end Params

section Parts

variable {f} {e : QString × QString} {es : List (QString × QString)} {t : List UInt8}
  {part p : Part α}

theorem paramsText_cons (e : QString × QString) (es : List (QString × QString)) :
    paramsText (e :: es) = 59 :: (space :: entryText e ++ paramsText es) := rfl

theorem isText_paramsText (h : ∀ e ∈ es, GoodParam e) : IsText (paramsText es) := by
  induction es with
  | nil => exact IsText.nil
  | cons e es ih =>
    obtain ⟨he, hes⟩ := List.forall_mem_cons.mp h
    exact ((he.isText.ascii_cons (by decide)).ascii_cons (by decide)).append (ih hes)

theorem ended_paramsText (h : ∀ e ∈ es, GoodParam e) (ht : Ended t) :
    Ended (toUtf8 (paramsText es) ++ t) := by
  cases es with
  | nil => exact ht
  | cons e es =>
    obtain ⟨he, hes⟩ := List.forall_mem_cons.mp h
    have hrest := (he.isText.ascii_cons (u := space) (by decide)).append (isText_paramsText hes)
    have hbytes := toUtf8_ascii_cons (u := 59) (by decide) hrest
    rw [paramsText_cons, hbytes]
    intro c hc
    obtain rfl := Option.some.inj hc
    rfl

theorem readParams_written (h : ∀ e ∈ es, GoodParam e ∧ NoMark e.2)
    (hq : ∀ e ∈ es, e.1 = ascii "q" →
      ∃ level, f.toFloat e.2 = some level ∧ f.notNegative level = true)
    (ht : Ended t) (hsemicolon : t.head? ≠ some semicolon) (part : Part α) :
    ∃ level, readParams f part [] (toUtf8 (paramsText es) ++ t) =
      (⟨part.fName, level, es.foldl (fun m e => m.insert e.1 e.2) part.fParam⟩, [], t) := by
  induction es generalizing part with
  | nil =>
    refine ⟨part.fLevel, ?_⟩
    show readParams f part [] t = (part, [], t)
    cases t with
    | nil => rw [readParams]
    | cons c t => rw [readParams, if_neg fun hc => hsemicolon (congrArg some hc)]
  | cons e es ih =>
    obtain ⟨⟨he, hmark⟩, hes⟩ := List.forall_mem_cons.mp h
    obtain ⟨hqe, hqes⟩ := List.forall_mem_cons.mp hq
    have hgood : ∀ e ∈ es, GoodParam e := fun e he => (hes e he).1
    have htext := he.isText.ascii_cons (u := space) (by decide)
    have hrest := isText_paramsText hgood
    have hends := ended_paramsText hgood ht
    have hbytes : toUtf8 (paramsText (e :: es)) ++ t =
        semicolon :: (toUtf8 (space :: entryText e) ++ (toUtf8 (paramsText es) ++ t)) := by
      rw [paramsText_cons, toUtf8_ascii_cons (by decide) (htext.append hrest),
        toUtf8_append htext hrest,
        List.cons_append, List.append_assoc]
      rfl
    obtain ⟨level, hparam⟩ := readParam_written f he hmark hends hqe
    obtain ⟨last, hlast⟩ := ih hes hqes ((part.addParameter e.1 e.2).setLevel level)
    refine ⟨last, ?_⟩
    rw [hbytes, readParams, if_pos rfl, hparam, (paramValue_written he hmark hends).2]
    exact hlast

structure ReadsBack (f : Floats α) (p : Part α) : Prop where
  good : GoodPart f p
  name : NoMark p.fName
  values : ∀ e ∈ p.fParam.entries, NoMark e.2

theorem ReadsBack.isText (h : ReadsBack f p) : IsText p.text :=
  h.good.name.text.append (isText_paramsText h.good.params)

theorem level_eq {p p' : Part α} (h : HasLevel f p) (h' : HasLevel f p')
    (hparam : p.fParam = p'.fParam) : p.fLevel = p'.fLevel := by
  unfold HasLevel at h h'
  rw [hparam] at h
  cases hfind : p'.fParam.find? (ascii "q") with
  | none =>
    rw [hfind] at h h'
    exact h.trans h'.symm
  | some v =>
    rw [hfind] at h h'
    exact Option.some.inj (h.1.symm.trans h'.1)

theorem readPart_written (h : ReadsBack f p) (h0 : 0 ∉ toUtf8 p.text ++ t) (ht : Ended t)
    (hsemicolon : t.head? ≠ some semicolon) :
    readPart f [] (toUtf8 p.text ++ t) = (p, [], t) ∧
      partName (toUtf8 p.text ++ t) = p.fName := by
  have hname := h.good.name
  have hparams := isText_paramsText h.good.params
  have hbytes : toUtf8 p.text ++ t =
      toUtf8 p.fName ++ (toUtf8 (paramsText p.fParam.entries) ++ t) := by
    rw [Part.text, toUtf8_append hname.text hparams, List.append_assoc]
  have hends : ∀ c, (toUtf8 (paramsText p.fParam.entries) ++ t).head? = some c →
      (!endsName c) = false := fun c hc => by simp [ended_paramsText h.good.params ht c hc]
  have hscan := takeWhile_of_end (not_endsName hname.text hname.free) hends
  have hread : partName (toUtf8 p.text ++ t) = p.fName := by
    rw [partName, hbytes, hscan.1, fromUtf8_toUtf8 hname.text h.name, simplified_of_neat hname.neat]
  refine ⟨?_, hread⟩
  have hq : ∀ e ∈ p.fParam.entries, e.1 = ascii "q" →
      ∃ level, f.toFloat e.2 = some level ∧ f.notNegative level = true := by
    rintro ⟨k, v⟩ he rfl
    have hlevel := h.good.level
    have hfind := (OrderedMap.mem_entries_iff p.fParam (ascii "q") v).mp he
    unfold HasLevel at hlevel
    rw [hfind] at hlevel
    exact ⟨p.fLevel, hlevel⟩
  have hes : ∀ e ∈ p.fParam.entries, GoodParam e ∧ NoMark e.2 :=
    fun e he => ⟨h.good.params e he, h.values e he⟩
  obtain ⟨level, hlist⟩ := readParams_written hes hq ht hsemicolon
    (⟨p.fName, f.defaultLevel, OrderedMap.empty⟩ : Part α)
  rw [OrderedMap.foldl_insert_entries] at hlist
  have hstart : GoodPart f (⟨p.fName, f.defaultLevel, OrderedMap.empty⟩ : Part α) :=
    ⟨hname, h.good.short, fun e he => (List.not_mem_nil he).elim, rfl⟩
  have h0' : (0 : UInt8) ∉ toUtf8 (paramsText p.fParam.entries) ++ t := by
    rw [hbytes] at h0
    exact fun hmem => h0 (List.mem_append_right _ hmem)
  have hgood := hstart.readParams h0' (by rw [hlist])
  rw [hlist] at hgood
  have hsame := level_eq hgood.level h.good.level rfl
  rw [readPart, hread, hbytes, hscan.2, hlist]
  dsimp only at hsame
  rw [hsame]

theorem partsText_cons (p : Part α) (ps : List (Part α)) : partsText (p :: ps) =
    p.text ++ (if ps = [] then [] else 44 :: space :: partsText ps) := by
  cases ps with
  | nil => exact (List.append_nil _).symm
  | cons q ps => rfl

theorem isText_partsText {ps : List (Part α)} (h : ∀ p ∈ ps, ReadsBack f p) :
    IsText (partsText ps) := by
  induction ps with
  | nil => exact IsText.nil
  | cons p ps ih =>
    obtain ⟨hp, hps⟩ := List.forall_mem_cons.mp h
    rw [partsText_cons]
    split_ifs
    · exact hp.isText.append IsText.nil
    · exact hp.isText.append (((ih hps).ascii_cons (by decide)).ascii_cons (by decide))

theorem skipSeparators_text (h : ReadsBack f p) (t : List UInt8) :
    skipSeparators (toUtf8 p.text ++ t) = toUtf8 p.text ++ t ∧ toUtf8 p.text ++ t ≠ [] := by
  obtain ⟨b, bs, hbytes, hfirst⟩ := head_toUtf8 h.good.name.text h.good.name.neat.ends.1
  have hskip : (isCSpace b || b == comma) = false := by
    by_cases hascii : b.toNat < 128
    · have hhead := hfirst hascii
      have hspace := h.good.name.neat.ends.2.1 _ hhead
      have hfree := h.good.name.free 44 (by decide)
      have hall : ∀ n : ℕ, n < 128 → isSpace n.toUInt16 = false → n.toUInt16 ≠ 44 →
          (isCSpace n.toUInt8 || n.toUInt8 == comma) = false := by decide
      have hb := hall b.toNat hascii hspace (by
        rintro heq
        exact hfree (heq ▸ List.mem_of_head? hhead))
      simpa using hb
    · simp only [isCSpace, comma, Bool.or_eq_false_iff, Bool.and_eq_false_iff,
        beq_eq_false_iff_ne, decide_eq_false_iff_not, UInt8.le_iff_toNat_le, ne_eq,
        ← UInt8.toNat_inj, UInt8.reduceToNat]
      omega
  rw [Part.text, toUtf8_append h.good.name.text (isText_paramsText h.good.params), hbytes,
    List.cons_append, List.cons_append]
  exact ⟨List.dropWhile_cons_of_neg (by simp [hskip]), List.cons_ne_nil _ _⟩

theorem readParts_written {ps : List (Part α)} (h : ∀ p ∈ ps, ReadsBack f p)
    (h0 : 0 ∉ toUtf8 (partsText ps)) (front : List (Part α)) :
    readParts f front [] (toUtf8 (partsText ps)) = (front ++ ps, []) := by
  induction ps generalizing front with
  | nil =>
    rw [List.append_nil]
    exact readParts_blank f rfl
  | cons p ps ih =>
    obtain ⟨hp, hps⟩ := List.forall_mem_cons.mp h
    have htail : IsText (if ps = [] then [] else 44 :: space :: partsText ps) := by
      split_ifs
      · exact IsText.nil
      · exact ((isText_partsText hps).ascii_cons (by decide)).ascii_cons (by decide)
    have hrest : toUtf8 (if ps = [] then [] else 44 :: space :: partsText ps) =
        if ps = [] then [] else comma :: 32 :: toUtf8 (partsText ps) := by
      split_ifs
      · rfl
      · rw [toUtf8_ascii_cons (by decide) ((isText_partsText hps).ascii_cons (by decide)),
          toUtf8_ascii_cons (by decide) (isText_partsText hps)]
        rfl
    rw [partsText_cons, toUtf8_append hp.isText htail, hrest] at h0 ⊢
    generalize ht : (if ps = [] then [] else comma :: 32 :: toUtf8 (partsText ps)) = t at h0 ⊢
    have hends : Ended t ∧ t.head? ≠ some semicolon := by
      rw [← ht]
      split_ifs
      · exact ⟨fun c hc => absurd hc (by simp), by simp⟩
      · refine ⟨fun c hc => ?_, fun hc => absurd (Option.some.inj hc) (by decide)⟩
        obtain rfl := Option.some.inj hc
        rfl
    obtain ⟨hskip, hne⟩ := skipSeparators_text hp t
    obtain ⟨hpart, hname⟩ := readPart_written hp h0 hends.1 hends.2
    rw [readParts_part f (by rwa [hskip]) (by
      rw [hskip, hname, not_or, not_lt]
      exact ⟨hp.good.name.neat.ends.1, hp.good.short⟩), hskip, hpart]
    by_cases hlast : ps = []
    · subst hlast
      rw [if_pos rfl] at ht
      rw [← ht]
      exact readParts_blank f rfl
    · rw [if_neg hlast] at ht
      have h0' : (0 : UInt8) ∉ toUtf8 (partsText ps) := by
        rw [← ht] at h0
        exact fun hmem => h0 (List.mem_append_right _
          (List.mem_cons_of_mem _ (List.mem_cons_of_mem _ hmem)))
      have hsame : skipSeparators t = skipSeparators (toUtf8 (partsText ps)) := by
        rw [← ht]
        rfl
      rw [readParts_congr f hsame, ih hps h0', List.append_assoc, List.singleton_append]

end Parts

section Written

variable {f} {p : Part α}

theorem arg_two {s front back : QString} (hs : percent ∉ s) (happart : Apart s)
    (hfront : Unmarked 2 (front ++ s)) :
    arg (arg (percent :: 49 :: (s ++ [percent, 50])) front) back = front ++ s ++ back := by
  have hback : Unmarked 1 (s ++ [percent, 50]) := by
    intro m hm
    rw [numbers_plain_append hs] at hm
    have hnumbers : numbers [percent, 50] = [2] := by decide
    rw [hnumbers, List.mem_singleton] at hm
    omega
  have happart' : Apart (s ++ [percent, 50]) := by
    cases s with
    | nil => exact percent_apart
    | cons c s => exact fun d hd => happart d hd
  have hfirst := arg_digit [] front (s ++ [percent, 50]) (c := 49) (n := 1) (by decide) (by decide)
    (by decide) happart' (Unmarked.of_plain (by simp)) hback
  have hsecond := arg_digit (front ++ s) back [] (c := 50) (n := 2) (by decide) (by decide)
    (by decide) Apart.nil hfront (Unmarked.of_plain (by simp))
  rw [List.nil_append, List.nil_append, ← List.append_assoc] at hfirst
  rw [hfirst, hsecond, List.append_nil]

/-- A part that `QString::arg()` writes as it is: no place marker with a number up to 2 in what
comes before the last argument. -/
structure Unmarkable (p : Part α) : Prop where
  keys : ∀ e ∈ p.fParam.entries, e.2 ≠ [] → Unmarked 2 e.1
  before : ∀ es e, p.fParam.entries = es ++ [e] →
    Unmarked 2 p.fName ∧ ∀ d ∈ es, Unmarked 2 d.1 ∧ Unmarked 2 d.2

theorem parameterText_eq {e : QString × QString} (h : e.2 ≠ [] → Unmarked 2 e.1) :
    Part.parameterText e = entryText e := by
  unfold Part.parameterText entryText
  by_cases hempty : e.2 = []
  · rw [if_neg (not_not.mpr hempty), if_pos hempty]
  · have hplain : percent ∉ ([61] : QString) := by decide
    have happart : Apart [61] := Apart.cons (by decide) (by decide)
    have hfront : Unmarked 2 (e.1 ++ [61]) :=
      (h hempty).append (Unmarked.of_plain hplain) happart
    have hformat : ascii "%1=%2" = percent :: 49 :: ([61] ++ [percent, 50]) := by decide
    rw [if_pos hempty, if_neg hempty, hformat, arg_two hplain happart hfront, List.append_assoc]
    rfl

theorem unmarked_entryText {e : QString × QString} (h : Unmarked 2 e.1 ∧ Unmarked 2 e.2) :
    Unmarked 2 (entryText e) := by
  unfold entryText
  split_ifs
  · exact h.1
  · have hplain : percent ∉ ([61] : QString) := by decide
    have hvalue : Unmarked 2 (61 :: e.2) := Unmarked.plain_append (s := [61]) hplain h.2
    exact h.1.append hvalue (Apart.cons (by decide) (by decide))

/-- The parameters are written one after another. -/
theorem foldl_parameterText {es : List (QString × QString)} {front : QString}
    (hkeys : ∀ e ∈ es, e.2 ≠ [] → Unmarked 2 e.1)
    (hbefore : ∀ ds e, es = ds ++ [e] →
      Unmarked 2 front ∧ ∀ d ∈ ds, Unmarked 2 d.1 ∧ Unmarked 2 d.2) :
    es.foldl (fun result e => arg (arg (ascii "%1; %2") result) (Part.parameterText e)) front =
      front ++ paramsText es := by
  have hplain : percent ∉ ([59, 32] : QString) := by decide
  have happart : Apart [59, 32] := Apart.cons (by decide) (by decide)
  have hformat : ascii "%1; %2" = percent :: 49 :: ([59, 32] ++ [percent, 50]) := by decide
  induction es generalizing front with
  | nil => exact (List.append_nil front).symm
  | cons e es ih =>
    obtain ⟨hkey, hkeys⟩ := List.forall_mem_cons.mp hkeys
    have hfront : Unmarked 2 front := by
      obtain ⟨ds, d, hds⟩ := List.eq_nil_or_concat (e :: es) |>.resolve_left (by simp)
      exact (hbefore ds d (by rw [hds, List.concat_eq_append])).1
    have hsep : Unmarked 2 (front ++ [59, 32]) :=
      hfront.append (Unmarked.of_plain hplain) happart
    rw [List.foldl_cons, hformat, arg_two hplain happart hsep, ← hformat,
      parameterText_eq hkey, ih hkeys]
    · simp [paramsText_cons, space]
    · rintro ds d rfl
      obtain ⟨-, hds⟩ := hbefore (e :: ds) d rfl
      obtain ⟨he, hds⟩ := List.forall_mem_cons.mp hds
      refine ⟨?_, hds⟩
      rw [List.append_assoc]
      exact hfront.append (Unmarked.plain_append hplain (unmarked_entryText he))
        (Apart.cons (by decide) (by decide))

theorem toString_eq (h : Unmarkable p) : p.toString = p.text :=
  foldl_parameterText h.keys h.before

end Written

/-- A part that is written so that it reads back. -/
structure Writable {α : Type*} (p : Part α) : Prop where
  unmarked : Unmarkable p
  name : NoMark p.fName
  values : ∀ e ∈ p.fParam.entries, NoMark e.2

section Objects

variable {f} {ps : List (Part α)}

theorem partsText_flatMap (p : Part α) (ps : List (Part α)) :
    partsText (p :: ps) = p.text ++ ps.flatMap fun q => 44 :: space :: q.text := by
  induction ps generalizing p with
  | nil => exact (List.append_nil _).symm
  | cons q ps ih =>
    rw [partsText, ih q, List.flatMap_cons]
    rfl

theorem toString_parts {w : WeightedHttpString α}
    (h : ∀ p ∈ w.fParts, p.toString = p.text ∧ p.text ≠ []) : w.toString = partsText w.fParts := by
  have hfold : ∀ (qs : List (Part α)) (result : QString), result ≠ [] →
      (∀ q ∈ qs, q.toString = q.text ∧ q.text ≠ []) →
      qs.foldl
        (fun result p => (if result = [] then result else result ++ ascii ", ") ++ p.toString)
        result = result ++ qs.flatMap fun q => 44 :: space :: q.text := by
    intro qs
    induction qs with
    | nil => exact fun result _ _ => (List.append_nil result).symm
    | cons q qs ih =>
      intro result hresult hqs
      obtain ⟨hq, hqs⟩ := List.forall_mem_cons.mp hqs
      rw [List.foldl_cons, if_neg hresult, hq.1, ih _ (by simp [hresult]) hqs, List.flatMap_cons]
      have hcomma : ascii ", " = [44, space] := by decide
      simp [hcomma]
  unfold WeightedHttpString.toString
  cases hparts : w.fParts with
  | nil => rfl
  | cons p ps =>
    rw [hparts] at h
    obtain ⟨hp, hps⟩ := List.forall_mem_cons.mp h
    rw [List.foldl_cons, if_pos rfl, List.nil_append, hp.1, hfold ps _ hp.2 hps,
      partsText_flatMap]

theorem free_paramsText {es : List (QString × QString)} (h : ∀ e ∈ es, GoodParam e) :
    0 ∉ paramsText es := by
  intro hmem
  rw [paramsText, List.mem_flatMap] at hmem
  obtain ⟨e, he, hmem⟩ := hmem
  have hkey := (h e he).keyFree 0 (by decide)
  have hvalue := (h e he).valueFree 0 (by decide)
  unfold entryText at hmem
  split_ifs at hmem
  · simp [space, hkey] at hmem
  · simp [space, hkey, hvalue] at hmem

theorem free_partsText (h : ∀ p ∈ ps, GoodPart f p) : 0 ∉ partsText ps := by
  induction ps with
  | nil => exact List.not_mem_nil
  | cons p ps ih =>
    obtain ⟨hp, hps⟩ := List.forall_mem_cons.mp h
    have htext : 0 ∉ p.text := by
      rw [Part.text, List.mem_append, not_or]
      exact ⟨hp.name.free 0 (by decide), free_paramsText hp.params⟩
    have hrest := ih hps
    rw [partsText_cons, List.mem_append, not_or]
    refine ⟨htext, ?_⟩
    split_ifs
    · exact List.not_mem_nil
    · simp [space, hrest]

theorem parse_partsText (h : ∀ p ∈ ps, ReadsBack f p) :
    parse f {} (partsText ps) false = (⟨partsText ps, ps, []⟩, true) := by
  have h0 : (0 : UInt8) ∉ toUtf8 (partsText ps) := fun hmem =>
    free_partsText (fun p hp => (h p hp).good)
      (mem_of_mem_toUtf8 (isText_partsText h) hmem (by decide))
  have hcut : cString (toUtf8 (partsText ps)) = toUtf8 (partsText ps) := by
    have happend := cString_of_notMem h0 []
    rwa [List.append_nil, show cString [] = [] from rfl, List.append_nil] at happend
  rw [parse_new, hcut, readParts_written h h0 []]
  rfl

theorem parse_written {w : WeightedHttpString α} (hgood : ∀ p ∈ w.fParts, GoodPart f p)
    (hw : ∀ p ∈ w.fParts, Writable p) :
    (parse f {} w.toString false).2 = true ∧
      (parse f {} w.toString false).1.fParts = w.fParts := by
  have hback : ∀ p ∈ w.fParts, ReadsBack f p :=
    fun p hp => ⟨hgood p hp, (hw p hp).name, (hw p hp).values⟩
  have htext : w.toString = partsText w.fParts := by
    refine toString_parts fun p hp => ⟨toString_eq (hw p hp).unmarked, ?_⟩
    exact List.append_ne_nil_of_left_ne_nil (hgood p hp).name.neat.ends.1 _
  rw [htext, parse_partsText hback]
  exact ⟨rfl, rfl⟩

end Objects

/-- A string that is read without an error comes back from what is written of it when its parts
are writable. -/
theorem parse_toString {s : QString} (h : (parse f {} s false).2 = true)
    (hw : ∀ p ∈ (parse f {} s false).1.fParts, Writable p) :
    (parse f {} (parse f {} s false).1.toString false).2 = true ∧
      (parse f {} (parse f {} s false).1.toString false).1.fParts =
        (parse f {} s false).1.fParts := by
  refine parse_written ?_ hw
  rw [parse_new, decide_eq_true_eq] at h
  have h0 : (0 : UInt8) ∉ cString (toUtf8 s) := fun hmem => by
    simpa using List.mem_takeWhile_imp hmem
  exact goodPart_readParts h0 h fun p hp => (List.not_mem_nil hp).elim

def samplePart (name param : QString) : Part ℕ :=
  ⟨name, 10, OrderedMap.empty.insert param []⟩

def IsWord (q : QString) : Prop :=
  q ≠ [] ∧ ∀ u ∈ q, u.toNat < 128 ∧ isSpace u = false ∧ u ∉ keyStops

instance (q : QString) : Decidable (IsWord q) :=
  decidable_of_iff (q ≠ [] ∧ q.Forall fun u => u.toNat < 128 ∧ isSpace u = false ∧ u ∉ keyStops)
    (and_congr_right' List.forall_iff_forall_mem)

theorem IsWord.isText {q : QString} (h : IsWord q) : IsText q := by
  obtain ⟨-, h⟩ := h
  induction q with
  | nil => exact IsText.nil
  | cons u q ih =>
    obtain ⟨hu, hq⟩ := List.forall_mem_cons.mp h
    exact (ih hq).ascii_cons hu.1

theorem readsBack_samplePart {name param : QString} (hname : IsWord name)
    (hshort : name.length ≤ 17) (hparam : IsWord param) (hq : param ≠ ascii "q") :
    ReadsBack sampleFloats (samplePart name param) := by
  have hneat {q : QString} (h : IsWord q) : IsNeat q := .word h.1 fun c hc => (h.2 c hc).2.1
  have hfree {q : QString} (h : IsWord q) : Free keyStops q :=
    fun u hu hmem => (h.2 u hmem).2.2 hu
  have hnameStops : ∀ u ∈ nameStops, u ∈ keyStops :=
    List.forall_iff_forall_mem.mp (by decide)
  have hentries : ∀ e ∈ (samplePart name param).fParam.entries, e = (param, []) :=
    fun e he => List.mem_singleton.mp he
  have hmark : name.head? ≠ some 0xFEFF := fun hhead =>
    absurd (hname.2 _ (List.mem_of_head? hhead)).1 (by decide)
  refine ⟨⟨⟨hname.isText, hneat hname, fun u hu => hfree hname u (hnameStops u hu)⟩, hshort,
    fun e he => ?_, ?_⟩, hmark, fun e he => ?_⟩
  · rw [hentries e he]
    exact ⟨hparam.isText, hneat hparam, hfree hparam, IsText.nil, rfl,
      fun u _ hu => List.not_mem_nil hu⟩
  · have hfind := OrderedMap.find?_insert (OrderedMap.empty : OrderedMap QString QString) param
      (ascii "q") []
    rw [if_neg (Ne.symm hq)] at hfind
    show match (OrderedMap.empty.insert param []).find? (ascii "q") with
      | none => 10 = sampleFloats.defaultLevel
      | some v => sampleFloats.toFloat v = some 10 ∧ sampleFloats.notNegative 10 = true
    rw [hfind]
    rfl
  · rw [hentries e he]
    exact fun hhead => by cases hhead

theorem parse_samplePart (name param : QString) (hname : IsWord name) (hshort : name.length ≤ 17)
    (hparam : IsWord param) (hq : param ≠ ascii "q") :
    parse sampleFloats {} (samplePart name param).text false =
      (⟨(samplePart name param).text, [samplePart name param], []⟩, true) :=
  have hread : ∀ p ∈ [samplePart name param], ReadsBack sampleFloats p :=
    List.forall_mem_singleton.mpr (readsBack_samplePart hname hshort hparam hq)
  parse_partsText hread

theorem parse_toString_language :
    (parse sampleFloats {} (samplePart (ascii "fr") (ascii "a")).text false).2 = true ∧
    (∀ p ∈ (parse sampleFloats {} (samplePart (ascii "fr") (ascii "a")).text false).1.fParts,
      Writable p) ∧
    (parse sampleFloats {} (parse sampleFloats {} (samplePart (ascii "fr") (ascii "a")).text
      false).1.toString false).1.fParts =
        (parse sampleFloats {} (samplePart (ascii "fr") (ascii "a")).text false).1.fParts := by
  have hread := parse_samplePart (ascii "fr") (ascii "a") (by decide) (by decide)
    (by decide) (by decide)
  have hok : (parse sampleFloats {} (samplePart (ascii "fr") (ascii "a")).text false).2 = true := by
    rw [hread]
  have hw : ∀ p ∈ (parse sampleFloats {} (samplePart (ascii "fr") (ascii "a")).text false).1.fParts,
      Writable p := by
    rw [hread, List.forall_mem_singleton]
    refine ⟨⟨by decide, fun es e hes => ?_⟩, by decide, by decide⟩
    have hes : [(ascii "a", ([] : QString))] = es ++ [e] := hes
    obtain ⟨rfl, -⟩ : es = [] ∧ [e] = [(ascii "a", [])] :=
      (List.append_eq_singleton_iff.mp hes.symm).resolve_right fun hnil => by cases hnil.2
    exact ⟨by decide, fun d hd => by cases hd⟩
  exact ⟨hok, hw, (parse_toString sampleFloats hok hw).2⟩

/-- A name that is a place marker takes the parameter after it. -/
theorem parse_marker : ¬ ∀ (f : Floats ℕ) (s : QString), (parse f {} s false).2 = true →
    (parse f {} (parse f {} s false).1.toString false).2 = true ∧
      (parse f {} (parse f {} s false).1.toString false).1.fParts =
        (parse f {} s false).1.fParts := by
  intro h
  have hread := parse_samplePart (ascii "%1") (ascii "a") (by decide) (by decide)
    (by decide) (by decide)
  have hwritten := parse_samplePart (ascii "a") (ascii "%2") (by decide)
    (by decide) (by decide) (by decide)
  have htext : WeightedHttpString.toString
      (⟨(samplePart (ascii "%1") (ascii "a")).text, [samplePart (ascii "%1") (ascii "a")], []⟩ :
        WeightedHttpString ℕ) = (samplePart (ascii "a") (ascii "%2")).text := by
    decide
  obtain ⟨-, hparts⟩ := h sampleFloats (samplePart (ascii "%1") (ascii "a")).text (by rw [hread])
  rw [hread, htext, hwritten] at hparts
  have hname := congrArg (fun parts => parts.map Part.fName) hparts
  revert hname
  decide

end SnapCpp.WeightedHttp
