import SnapCpp.Ensures
import SnapCpp.MessageRoundTrip
import SnapCpp.Pieces

/-!
Which messages are read back from their own line of text. The sender and the
names in front of the parameters are scanned character by character, and their
scanners say what text they took. A message that the setters or a line of text
made has clean names and Unicode values; it is read back exactly when its values
start with no byte order mark, its quoted values end with no backslash and its
sender can be told from the rest of the line.
-/
namespace SnapCpp.MessageReadable

open QString Utf StringReplace CommunicatorMessage MessageRoundTrip

section Maps

variable {K V : Type*} [LinearOrder K]

/-- Assigning the entries of a sorted list one after the other. -/
theorem find?_foldl_insert (f : V → V) (k : K) (l : List (K × V))
    (hl : l.Pairwise (fun a b => a.1 < b.1)) (m : OrderedMap K V) :
    (l.foldl (fun acc e => acc.insert e.1 (f e.2)) m).find? k =
      ((OrderedMap.findEntry k l).map f).or (m.find? k) := by
  induction l generalizing m with
  | nil => rfl
  | cons e rest ih =>
    obtain ⟨hhead, htail⟩ := List.pairwise_cons.mp hl
    rw [List.foldl_cons, ih htail, OrderedMap.findEntry]
    by_cases hk : e.1 = k
    · subst hk
      have hnone : OrderedMap.findEntry e.1 rest = none := by
        rw [Option.eq_none_iff_forall_not_mem]
        intro v hv
        exact lt_irrefl e.1 (hhead (e.1, v) (OrderedMap.mem_of_findEntry e.1 v rest hv))
      simp [hnone]
    · simp [hk, Ne.symm hk]

/-- The map with every value changed by `f`. -/
theorem find?_rebuild (f : V → V) (m : OrderedMap K V) (k : K) :
    (m.entries.foldl (fun acc e => acc.insert e.1 (f e.2)) OrderedMap.empty).find? k =
      (m.find? k).map f := by
  rw [find?_foldl_insert f k m.entries m.sorted, OrderedMap.find?_empty, Option.or_none]
  rfl

end Maps

variable {t s rest name r back value k front pre text : QString} {m m' : Message}

theorem scanServer_spec (h : scanServer t = some (s, rest)) :
    ∃ p, t = p ++ colon :: rest ∧ s = p.map lowByte ∧ ∀ c ∈ p, c ≠ colon ∧ c ≠ space := by
  induction t generalizing s with
  | nil => cases h
  | cons c t ih =>
    rw [scanServer] at h
    split_ifs at h with hcolon hspace
    · obtain ⟨rfl, rfl⟩ := Prod.mk.inj (Option.some.inj h)
      exact ⟨[], by rw [hcolon]; rfl, rfl, fun _ hc => absurd hc List.not_mem_nil⟩
    · obtain ⟨r, hr, heq⟩ := Option.map_eq_some_iff.mp h
      obtain ⟨rfl, rfl⟩ := Prod.mk.inj heq
      obtain ⟨p, rfl, hs, hp⟩ := ih hr
      refine ⟨c :: p, rfl, by rw [hs]; rfl, fun x hx => ?_⟩
      rcases List.mem_cons.mp hx with rfl | hx
      · exact ⟨hcolon, hspace⟩
      · exact hp x hx

theorem scanServer_append (p rest : QString) (h : ∀ c ∈ p, c ≠ colon ∧ c ≠ space) :
    scanServer (p ++ colon :: rest) = some (p.map lowByte, rest) := by
  induction p with
  | nil => simp [scanServer]
  | cons c p ih =>
    have hc := h c List.mem_cons_self
    rw [List.cons_append, scanServer, if_neg hc.1, if_neg hc.2,
      ih (List.forall_mem_cons.mp h).2]
    rfl

theorem scanService_spec (h : scanService t = some (s, rest)) :
    ∃ p, t = p ++ space :: rest ∧ s = p.map lowByte ∧ ∀ c ∈ p, c ≠ space := by
  induction t generalizing s with
  | nil => cases h
  | cons c t ih =>
    rw [scanService] at h
    split_ifs at h with hspace
    · obtain ⟨rfl, rfl⟩ := Prod.mk.inj (Option.some.inj h)
      exact ⟨[], by rw [hspace]; rfl, rfl, fun _ hc => absurd hc List.not_mem_nil⟩
    · obtain ⟨r, hr, heq⟩ := Option.map_eq_some_iff.mp h
      obtain ⟨rfl, rfl⟩ := Prod.mk.inj heq
      obtain ⟨p, rfl, hs, hp⟩ := ih hr
      refine ⟨c :: p, rfl, by rw [hs]; rfl, fun x hx => ?_⟩
      rcases List.mem_cons.mp hx with rfl | hx
      · exact hspace
      · exact hp x hx

theorem scanService_append (p rest : QString) (h : ∀ c ∈ p, c ≠ space) :
    scanService (p ++ space :: rest) = some (p.map lowByte, rest) := by
  induction p with
  | nil => simp [scanService]
  | cons c p ih =>
    rw [List.cons_append, scanService, if_neg (h c List.mem_cons_self),
      ih (List.forall_mem_cons.mp h).2]
    rfl

/-- A text that starts with a sender. -/
theorem scanSentFrom_less {s' : QString} :
    scanSentFrom (less :: t) = some (s, s', rest) ↔
      ∃ p q, t = p ++ colon :: (q ++ space :: rest) ∧ s = p.map lowByte ∧ s' = q.map lowByte ∧
        (∀ c ∈ p, c ≠ colon ∧ c ≠ space) ∧ ∀ c ∈ q, c ≠ space := by
  have hunfold : scanSentFrom (less :: t) = (scanServer t).bind (fun server =>
      (scanService server.2).bind (fun service => some (server.1, service.1, service.2))) := rfl
  rw [hunfold]
  constructor
  · intro h
    obtain ⟨⟨a, back⟩, hserver, h⟩ := Option.bind_eq_some_iff.mp h
    obtain ⟨⟨b, back'⟩, hservice, h⟩ := Option.bind_eq_some_iff.mp h
    simp only [Option.some.injEq, Prod.mk.injEq] at h
    obtain ⟨rfl, rfl, rfl⟩ := h
    obtain ⟨p, rfl, rfl, hp⟩ := scanServer_spec hserver
    obtain ⟨q, rfl, rfl, hq⟩ := scanService_spec hservice
    exact ⟨p, q, rfl, rfl, rfl, hp, hq⟩
  · rintro ⟨p, q, rfl, rfl, rfl, hp, hq⟩
    rw [scanServer_append p _ hp, Option.bind_some, scanService_append q rest hq]
    rfl

def IsLatin (s : QString) : Prop := ∀ c ∈ s, c.toNat < 256

theorem lowByte_lt (c : UInt16) : (lowByte c).toNat < 256 := by
  rw [lowByte, UInt16.toNat_mod]
  exact Nat.mod_lt _ (by decide)

theorem isLatin_map_lowByte (p : QString) : IsLatin (p.map lowByte) := by
  intro c hc
  obtain ⟨x, -, rfl⟩ := List.mem_map.mp hc
  exact lowByte_lt x

theorem lowByte_of_lt {c : UInt16} (h : c.toNat < 256) : lowByte c = c := by
  rw [lowByte, ← UInt16.toNat_inj, UInt16.toNat_mod]
  exact Nat.mod_eq_of_lt h

theorem map_lowByte (h : IsLatin s) : s.map lowByte = s := by
  induction s with
  | nil => rfl
  | cons c rest ih =>
    rw [List.map_cons, lowByte_of_lt (h c List.mem_cons_self),
      ih (List.forall_mem_cons.mp h).2]

/-- A name that ends neither at another name nor at the parameters. -/
def IsClean (s : QString) : Prop := ∀ c ∈ s, c ∉ [0, space, colon, slash]

theorem isClean_of_plain (h : ∀ c ∈ s, IsPlain c) : IsClean s := by
  intro c hc hmem
  refine (h c hc).ne ?_
  simp only [List.mem_cons, List.not_mem_nil, or_false] at hmem ⊢
  rcases hmem with hmem | hmem | hmem | hmem <;> simp [hmem]

theorem scanHeader_name (hname : IsClean name) (rest : QString) (h : Header) :
    scanHeader (name ++ rest) h = scanHeader rest { h with command := h.command ++ name } := by
  induction name generalizing h with
  | nil => simp
  | cons c name ih =>
    have hc := hname c List.mem_cons_self
    simp only [List.mem_cons, List.not_mem_nil, or_false, not_or] at hc
    rw [List.cons_append, scanHeader, if_neg hc.2.1, if_neg hc.2.2.1, if_neg hc.2.2.2,
      ih (List.forall_mem_cons.mp hname).2]
    simp

theorem scanHeader_end (hrest : rest = [] ∨ rest.head? = some space)
    (h : Header) : scanHeader rest h = some (h, rest) := by
  rcases hrest with rfl | hrest
  · rfl
  · obtain ⟨more, rfl⟩ := List.head?_eq_some_iff.mp hrest
    rw [scanHeader, if_pos rfl]

/-- The names in front of the parameters are read back; a server without a
service is not written. -/
theorem scanHeader_writeHeader (hserver : IsClean m.fServer)
    (hservice : IsClean m.fService) (hcommand : IsClean m.fCommand)
    (hrest : rest = [] ∨ rest.head? = some space) :
    ∃ h, scanHeader (m.writeHeader ++ rest) {} = some (h, rest) ∧
      (m.fService ≠ [] → h.server = m.fServer) ∧ h.service = m.fService ∧
      h.command = m.fCommand := by
  by_cases hempty : m.fService = []
  · refine ⟨{ command := m.fCommand }, ?_, fun h => absurd hempty h, hempty.symm, rfl⟩
    simp only [Message.writeHeader, hempty, ne_eq, not_true_eq_false, if_false, List.nil_append]
    rw [scanHeader_name hcommand, scanHeader_end hrest]
    rfl
  · have hmid : ∀ (h : Header), h.hasService = false → h.command = [] →
        scanHeader (m.fService ++ slash :: (m.fCommand ++ rest)) h =
          some ({ h with hasService := true, service := m.fService, command := m.fCommand },
            rest) := by
      intro h hhas hcmd
      rw [scanHeader_name hservice, scanHeader, if_neg (by decide), if_neg (by decide), if_pos rfl,
        if_neg (by simp [hhas, hempty]), scanHeader_name hcommand, scanHeader_end hrest]
      simp [hcmd]
    by_cases hserverEmpty : m.fServer = []
    · refine ⟨⟨[], m.fService, m.fCommand, false, true⟩, ?_, fun _ => hserverEmpty.symm, rfl, rfl⟩
      simp only [Message.writeHeader, hempty, hserverEmpty, ne_eq, not_true_eq_false,
        not_false_eq_true, if_true, if_false, List.nil_append, List.append_assoc,
        List.singleton_append]
      exact hmid {} rfl rfl
    · refine ⟨⟨m.fServer, m.fService, m.fCommand, true, true⟩, ?_, fun _ => rfl, rfl, rfl⟩
      simp only [Message.writeHeader, hempty, hserverEmpty, ne_eq, not_false_eq_true, if_true,
        List.append_assoc, List.cons_append]
      rw [scanHeader_name hserver, scanHeader, if_neg (by decide), if_pos rfl,
        if_neg (by simp [hserverEmpty])]
      exact hmid { hasServer := true, server := m.fServer } rfl rfl

structure Header.Clean (h : Header) : Prop where
  server : IsClean h.server
  service : IsClean h.service
  command : IsClean h.command

theorem isClean_nil : IsClean [] := fun _ hc => absurd hc List.not_mem_nil

theorem scanHeader_clean {h h' : Header} (ht : 0 ∉ t) (hh : Header.Clean h)
    (hscan : scanHeader t h = some (h', rest)) : Header.Clean h' ∧ 0 ∉ rest := by
  induction t generalizing h with
  | nil =>
    obtain ⟨rfl, rfl⟩ := Prod.mk.inj (Option.some.inj hscan)
    exact ⟨hh, List.not_mem_nil⟩
  | cons c t ih =>
    have htail : 0 ∉ t := fun hmem => ht (List.mem_cons_of_mem c hmem)
    have hzero : c ≠ 0 := fun heq => ht (heq ▸ List.mem_cons_self)
    rw [scanHeader] at hscan
    split_ifs at hscan with hspace hcolon hbad hslash hbad
    · obtain ⟨rfl, rfl⟩ := Prod.mk.inj (Option.some.inj hscan)
      exact ⟨hh, ht⟩
    · refine ih htail ?_ hscan
      exact ⟨hh.command, hh.service, isClean_nil⟩
    · refine ih htail ?_ hscan
      exact ⟨hh.server, hh.command, isClean_nil⟩
    · refine ih htail ?_ hscan
      refine ⟨hh.server, hh.service, fun x hx => ?_⟩
      rcases List.mem_append.mp hx with hx | hx
      · exact hh.command x hx
      · rw [List.mem_singleton.mp hx]
        simp [hzero, hspace, hcolon, hslash]

/-- A value between quotes never ends with a backslash: the reader takes one in
front of the closing quote for an escape. -/
theorem scanQuoted_spec (h : scanQuoted t = some (r, back)) :
    (∃ front, t = front ++ back) ∧ (∀ c ∈ r, c ∈ t) ∧ r.getLast? ≠ some backslash := by
  induction t using scanQuoted.induct generalizing r with
  | case1 => cases h
  | case2 =>
    obtain ⟨rfl, rfl⟩ := Prod.mk.inj (Option.some.inj h)
    exact ⟨⟨[quote], rfl⟩, fun _ hc => absurd hc List.not_mem_nil, by simp⟩
  | case3 c hc =>
    rw [scanQuoted, if_neg hc] at h
    cases h
  | case4 c' rest =>
    rw [scanQuoted, if_pos rfl] at h
    obtain ⟨rfl, rfl⟩ := Prod.mk.inj (Option.some.inj h)
    exact ⟨⟨[quote], rfl⟩, fun _ hc => absurd hc List.not_mem_nil, by simp⟩
  | case5 c c' rest hc hescape ih =>
    rw [scanQuoted, if_neg hc, if_pos hescape] at h
    obtain ⟨r', hr', heq⟩ := Option.map_eq_some_iff.mp h
    obtain ⟨rfl, rfl⟩ := Prod.mk.inj heq
    obtain ⟨⟨front, rfl⟩, hsub, hlast⟩ := ih hr'
    refine ⟨⟨c :: c' :: front, rfl⟩, ?_, ?_⟩
    · intro x hx
      rcases List.mem_cons.mp hx with rfl | hx
      · rw [hescape.2]
        simp
      · exact List.mem_cons_of_mem c (List.mem_cons_of_mem c' (hsub x hx))
    · rw [List.getLast?_cons]
      cases hend : r'.1.getLast? with
      | none => decide
      | some x => simpa [hend] using hlast
  | case6 c c' rest hc hescape ih =>
    rw [scanQuoted, if_neg hc, if_neg hescape] at h
    obtain ⟨r', hr', heq⟩ := Option.map_eq_some_iff.mp h
    obtain ⟨rfl, rfl⟩ := Prod.mk.inj heq
    obtain ⟨⟨front, hfront⟩, hsub, hlast⟩ := ih hr'
    refine ⟨⟨c :: front, by rw [hfront]; rfl⟩, ?_, ?_⟩
    · intro x hx
      rcases List.mem_cons.mp hx with rfl | hx
      · exact List.mem_cons_self
      · exact List.mem_cons_of_mem c (hsub x hx)
    · rw [List.getLast?_cons]
      cases hend : r'.1.getLast? with
      | some x => simpa [hend] using hlast
      | none =>
        -- the value is empty, so that the closing quote is next
        intro hc'
        refine hescape ⟨Option.some.inj hc', ?_⟩
        have hempty : r'.1 = [] := List.getLast?_eq_none_iff.mp hend
        by_contra hquote
        cases rest with
        | nil =>
          rw [scanQuoted, if_neg hquote] at hr'
          cases hr'
        | cons x rest =>
          rw [scanQuoted, if_neg hquote] at hr'
          split_ifs at hr'
          all_goals
            obtain ⟨y, -, heq'⟩ := Option.map_eq_some_iff.mp hr'
            rw [← heq'] at hempty
            cases hempty

theorem scanValue_spec (h : scanValue t = some (r, back)) :
    (∃ front, t = front ++ back) ∧ (∀ c ∈ r, c ∈ t) ∧
      (r.getLast? ≠ some backslash ∨
        t.head? ≠ some quote ∧ t = r ++ back ∧ semicolon ∉ r) := by
  unfold scanValue at h
  split_ifs at h with hquote
  · obtain ⟨more, rfl⟩ := List.head?_eq_some_iff.mp hquote
    obtain ⟨⟨front, hfront⟩, hsub, hlast⟩ := scanQuoted_spec h
    rw [List.tail_cons] at hfront hsub
    exact ⟨⟨quote :: front, by rw [hfront]; rfl⟩,
      fun c hc => List.mem_cons_of_mem quote (hsub c hc), Or.inl hlast⟩
  · obtain ⟨hr, hback⟩ := Prod.mk.inj (Option.some.inj h)
    have hsplit : t = r ++ back := by rw [← hr, ← hback, List.takeWhile_append_dropWhile]
    refine ⟨⟨r, hsplit⟩, fun c hc => ?_, Or.inr ⟨hquote, hsplit, fun hmem => ?_⟩⟩
    · rw [hsplit]
      exact List.mem_append_left back hc
    · rw [← hr] at hmem
      have hne := List.mem_takeWhile_imp hmem
      simp at hne

theorem scanParameter_spec (h : scanParameter t = some ((name, value), rest)) : IsName name ∧
      ∃ after r back, t = name ++ equal :: after ∧ scanValue after = some (r, back) ∧
        value = unsafeValue r ∧ (rest = [] ∨ back = semicolon :: rest) := by
  simp only [scanParameter] at h
  split_ifs at h with hempty hname
  have hsplit := (List.takeWhile_append_dropWhile (p := fun c => decide (c ≠ equal)) (l := t)).symm
  cases hdrop : t.dropWhile (fun c => decide (c ≠ equal)) with
  | nil =>
    rw [hdrop] at h
    cases h
  | cons c after =>
    have hc : c = equal := by
      have hhead := List.head?_dropWhile_not (fun c => decide (c ≠ equal)) t
      rw [hdrop] at hhead
      simpa using hhead
    rw [hdrop] at h hsplit
    subst hc
    cases hvalue : scanValue after with
    | none => simp [hvalue] at h
    | some r =>
      obtain ⟨r, back⟩ := r
      cases back with
      | nil =>
        simp only [hvalue, Option.some.injEq, Prod.mk.injEq] at h
        obtain ⟨⟨rfl, rfl⟩, rfl⟩ := h
        exact ⟨hname, after, r, [], hsplit, hvalue, rfl, Or.inl rfl⟩
      | cons c back =>
        simp only [hvalue] at h
        split_ifs at h with hsemicolon
        simp only [Option.some.injEq, Prod.mk.injEq] at h
        obtain ⟨⟨rfl, rfl⟩, rfl⟩ := h
        exact ⟨hname, after, r, c :: back, hsplit, hvalue, rfl, Or.inr (by rw [hsemicolon])⟩

/-- A text in which the raw value `r` is read for the name `k`, behind a semicolon
unless it is read first. -/
def ReadFrom (t k r : QString) : Prop :=
  ∃ pre after back, t = pre ++ (k ++ equal :: after) ∧
    (pre = [] ∨ pre.getLast? = some semicolon) ∧ scanValue after = some (r, back)

/-- Every parameter was read somewhere. -/
theorem scanParameters_source {fuel : ℕ} {ps result : OrderedMap QString QString}
    (h : scanParameters fuel t ps = some result) {v : QString} (hk : result.find? k = some v) :
    ps.find? k = some v ∨ IsName k ∧ ∃ r, ReadFrom t k r ∧ v = unsafeValue r := by
  induction fuel generalizing t ps with
  | zero =>
    cases t with
    | nil =>
      rw [← Option.some.inj h] at hk
      exact Or.inl hk
    | cons c t => cases h
  | succ fuel ih =>
    by_cases ht : t = []
    · subst ht
      rw [← Option.some.inj h] at hk
      exact Or.inl hk
    · rw [scanParameters_succ fuel ht] at h
      cases hscan : scanParameter t with
      | none => simp [hscan] at h
      | some p =>
        obtain ⟨⟨name, value⟩, rest⟩ := p
        simp only [hscan] at h
        obtain ⟨hname, after, r, back, rfl, hvalue, rfl, hrest⟩ := scanParameter_spec hscan
        rcases ih h with hps | ⟨hk', r', ⟨pre, after', back', rfl, hpre, hvalue'⟩, rfl⟩
        · rw [OrderedMap.find?_insert] at hps
          split_ifs at hps with heq
          · subst heq
            exact Or.inr ⟨hname, r, ⟨[], after, back, rfl, Or.inl rfl, hvalue⟩,
              (Option.some.inj hps).symm⟩
          · exact Or.inl hps
        · rcases hrest with hrest | rfl
          · simp at hrest
          · obtain ⟨⟨front, rfl⟩, -, -⟩ := scanValue_spec hvalue
            refine Or.inr ⟨hk', r', ⟨name ++ equal :: (front ++ semicolon :: pre), after', back',
              by simp, Or.inr ?_, hvalue'⟩, rfl⟩
            rcases hpre with rfl | hpre
            · simp [List.getLast?_cons]
            · simp [List.getLast?_append, List.getLast?_cons, hpre]

theorem quote_in_escapeQuotes (h : escapeQuotes s = front ++ quote :: back) :
    front.getLast? = some backslash := by
  induction s generalizing front with
  | nil =>
    cases front <;> cases h
  | cons c s ih =>
    have hnext : ∀ front', escapeQuotes s = front' ++ quote :: back → ∀ x : UInt16,
        (x :: front').getLast? = some backslash := by
      intro front' hfront x
      rw [List.getLast?_cons, ih hfront]
      rfl
    rw [escapeQuotes_cons] at h
    split_ifs at h with hc
    · cases front with
      | nil => exact absurd (List.cons.inj h).1 (by decide)
      | cons a front =>
        obtain rfl := (List.cons.inj h).1
        cases front with
        | nil => rfl
        | cons a front =>
          rw [List.getLast?_cons_of_ne_nil (List.cons_ne_nil a front)]
          exact hnext front (List.cons.inj (List.cons.inj h).2).2 a
    · cases front with
      | nil => exact absurd (List.cons.inj h).1 hc
      | cons a front => exact hnext front (List.cons.inj h).2 a

theorem segment_in_quoted {after : QString} (hfront : front ≠ [])
    (hquote : quote ∉ front)
    (hlast : front.getLast? ≠ some backslash) (h : quotedValue s = pre ++ semicolon :: rest)
    (hrest : rest ++ back = front ++ quote :: after) : after = back := by
  unfold quotedValue at h
  split_ifs at h with hneeds
  · -- the closing quote is the last character of the rest
    rcases List.eq_nil_or_concat' rest with rfl | ⟨inner, c, rfl⟩
    · have hend := congrArg List.getLast? h
      rw [List.cons_append, ← List.cons_append, List.getLast?_concat, List.getLast?_concat] at hend
      exact absurd hend (by decide)
    · rw [← List.cons_append, ← List.append_assoc] at h
      obtain ⟨hinner, hc⟩ := List.append_inj' h rfl
      obtain rfl := (List.cons.inj hc).1
      rw [List.append_assoc, List.singleton_append] at hrest
      by_cases hmem : quote ∈ inner
      · exfalso
        obtain ⟨first, more, rfl, hnot⟩ := List.eq_append_cons_of_mem hmem
        rw [List.append_assoc, List.cons_append] at hrest
        obtain ⟨rfl, -, -⟩ := Pieces.first_cut_inj hnot hquote hrest
        cases pre with
        | nil => exact absurd (List.cons.inj hinner).1 (by decide)
        | cons a pre =>
          have hsplit : escapeQuotes s = (pre ++ semicolon :: first) ++ quote :: more := by
            simpa using (List.cons.inj hinner).2
          have hescaped := quote_in_escapeQuotes hsplit
          rw [List.getLast?_append_of_ne_nil _ (List.cons_ne_nil _ _),
            List.getLast?_cons_of_ne_nil hfront] at hescaped
          exact hlast hescaped
      · exact (Pieces.first_cut_inj hmem hquote hrest).2.2.symm
  · rw [NeedsQuotes, not_or] at hneeds
    exact absurd (by rw [h]; simp) hneeds.1

theorem semicolon_notMem_name (h : IsName name) : semicolon ∉ name :=
  fun hmem => (h.spec.2 semicolon hmem).ne (by decide)

theorem semicolon_in_value (hname : IsName name)
    (h : name ++ equal :: s = pre ++ semicolon :: rest) :
    ∃ pre', s = pre' ++ semicolon :: rest := by
  rcases List.append_eq_append_iff.mp h with ⟨as, rfl, hs⟩ | ⟨as, rfl, hs⟩
  · cases as with
    | nil => exact absurd (List.cons.inj hs).1 (by decide)
    | cons a as => exact ⟨as, (List.cons.inj hs).2⟩
  · cases as with
    | nil => exact absurd (List.cons.inj hs).1 (by decide)
    | cons a as =>
      obtain rfl := (List.cons.inj hs).1
      exact absurd (by simp) (semicolon_notMem_name hname)

theorem written_segment {l : List (QString × QString)} {b : Bool} {after : QString}
    (hl : ∀ e ∈ l, IsName e.1) (hk : IsName k) (hfront : front ≠ []) (hquote : quote ∉ front)
    (hlast : front.getLast? ≠ some backslash) (hpre : pre = [] ∨ pre.getLast? = some semicolon)
    (h : (writeParameters b l).tail = pre ++ (k ++ equal :: (front ++ quote :: after))) :
    (∃ v back, (k, v) ∈ l ∧ front ++ quote :: after = quotedValue (safeValue v) ++ back) ∨
      after = [] ∨ after.head? = some semicolon := by
  induction l generalizing b pre with
  | nil =>
    have hlength := congrArg List.length h
    simp [writeParameters] at hlength
  | cons e rest ih =>
    obtain ⟨name, value⟩ := e
    have hname : IsName name := hl (name, value) List.mem_cons_self
    have hnext : ∀ pre', (pre' = [] ∨ pre'.getLast? = some semicolon) →
        (writeParameters false rest).tail = pre' ++ (k ++ equal :: (front ++ quote :: after)) →
        (∃ v back, (k, v) ∈ (name, value) :: rest ∧
          front ++ quote :: after = quotedValue (safeValue v) ++ back) ∨
          after = [] ∨ after.head? = some semicolon := by
      intro pre' hpre' htail
      have hrest := ih (List.forall_mem_cons.mp hl).2 hpre' htail
      rcases hrest with ⟨v, back, hmem, hv⟩ | h
      · exact Or.inl ⟨v, back, List.mem_cons_of_mem _ hmem, hv⟩
      · exact Or.inr h
    rw [writeParameters_tail] at h
    rcases hpre with rfl | hpre
    · have hequal : ∀ {n : QString}, IsName n → equal ∉ n := fun hn hmem =>
        (hn.spec.2 equal hmem).ne (by decide)
      obtain ⟨rfl, -, hrest⟩ := Pieces.first_cut_inj (hequal hname) (hequal hk) h
      exact Or.inl ⟨value, _, List.mem_cons_self, hrest.symm⟩
    · obtain ⟨pre', rfl⟩ := List.getLast?_eq_some_iff.mp hpre
      rw [← List.cons_append, ← List.append_assoc, List.append_assoc pre',
        List.singleton_append] at h
      rcases List.append_eq_append_iff.mp h with ⟨as, rfl, hwritten⟩ | ⟨as, hwritten, hseg⟩
      · refine hnext (as ++ [semicolon]).tail ?_ ?_
        · cases as with
          | nil => exact Or.inl rfl
          | cons a as => exact Or.inr (by simp)
        · rw [hwritten]
          cases as <;> simp
      · cases as with
        | nil =>
          refine hnext [] (Or.inl rfl) ?_
          rw [List.nil_append] at hseg
          rw [← hseg]
          rfl
        | cons a as =>
          obtain ⟨rfl, hrest⟩ := List.cons.inj hseg
          obtain ⟨pre'', hvalue⟩ := semicolon_in_value hname hwritten
          have hname : k ++ equal :: front ≠ [] := by simp
          have hafter : after = writeParameters false rest := segment_in_quoted hname
            (by
              simp only [List.mem_append, List.mem_cons, not_or]
              exact ⟨fun hmem => (hk.spec.2 quote hmem).ne (by decide), by decide, hquote⟩)
            (by
              rw [List.getLast?_append_of_ne_nil _ (List.cons_ne_nil _ _),
                List.getLast?_cons_of_ne_nil hfront]
              exact hlast) hvalue
            (by rw [List.append_assoc, List.cons_append]; exact hrest.symm)
          rw [hafter]
          exact Or.inr (writeParameters_head rest)

theorem marks_of_unescape {u out : List Char} (h : skipMark (skipMark u) = '"' :: out) :
    ∃ front, u = front ++ '"' :: out ∧ ∀ c ∈ front, c = byteOrderMark := by
  have hone : ∀ {u out : List Char} {c : Char}, skipMark u = c :: out →
      ∃ front, u = front ++ c :: out ∧ ∀ c ∈ front, c = byteOrderMark := by
    intro u out c h
    cases u with
    | nil => cases h
    | cons a rest =>
      rw [skipMark] at h
      split_ifs at h with ha
      · exact ⟨[a], by rw [h]; rfl, by simpa using ha⟩
      · exact ⟨[], h, fun _ hc => absurd hc List.not_mem_nil⟩
  obtain ⟨front, hfront, hmarks⟩ := hone h
  cases front with
  | nil =>
    obtain ⟨front', hfront', hmarks'⟩ := hone hfront
    exact ⟨front', hfront', hmarks'⟩
  | cons a front =>
    obtain ⟨front', hfront', hmarks'⟩ := hone hfront
    refine ⟨front' ++ a :: front, by rw [hfront']; simp, fun c hc => ?_⟩
    rcases List.mem_append.mp hc with hc | hc
    · exact hmarks' c hc
    · exact hmarks c hc

theorem raw_of_marks {front out : List Char} (hfront : ∀ c ∈ front, c = byteOrderMark)
    (h : unescape (chars r) = front ++ '"' :: out) :
    ∃ rest, r = front.map (fun _ => mark) ++ quote :: rest := by
  induction front generalizing r with
  | nil =>
    obtain ⟨cs, hcs, -⟩ := cons_of_unescape (by decide) h
    obtain ⟨rest, rfl, -⟩ := chars_eq_cons ⟨by decide, by decide⟩ hcs
    exact ⟨rest, rfl⟩
  | cons c front ih =>
    obtain rfl := hfront c List.mem_cons_self
    obtain ⟨cs, hcs, hout⟩ := cons_of_unescape (by decide) h
    obtain ⟨rest, rfl, hrest⟩ := chars_eq_cons ⟨by decide, by decide⟩ hcs
    rw [← hrest] at hout
    obtain ⟨more, rfl⟩ := ih (List.forall_mem_cons.mp hfront).2 hout
    exact ⟨more, rfl⟩

theorem last_skipMark {cs : List Char} {c : Char} (h : (skipMark cs).getLast? = some c) :
    cs.getLast? = some c := by
  cases cs with
  | nil => cases h
  | cons a rest =>
    rw [skipMark] at h
    split_ifs at h
    · rw [List.getLast?_cons, h]
      rfl
    · exact h

theorem quoted_of_scanParameters {fuel : ℕ} {ps : OrderedMap QString QString}
    (hnames : ∀ e ∈ ps.entries, IsName e.1) (hvalues : ∀ e ∈ ps.entries, IsText e.2)
    (hzero : 0 ∉ writeParameters true ps.entries)
    (h : scanParameters fuel (writeParameters true ps.entries).tail OrderedMap.empty = some ps) :
    ∀ e ∈ ps.entries, NeedsQuotes (safeValue e.2) → (safeValue e.2).getLast? ≠ some backslash := by
  intro e he hneeds hlast
  obtain ⟨k, v⟩ := e
  have hk := (OrderedMap.mem_entries_iff ps k v).mp he
  obtain ⟨cs, hnul, hv⟩ := hvalues (k, v) he
  simp only at hv hneeds hlast
  subst hv
  have hquoted := hneeds
  rw [safeValue_utf16 hnul] at hneeds hlast
  rw [needsQuotes_escape, needsQuotes_utf16] at hneeds
  rw [last_backslash_escape, last_backslash_utf16] at hlast
  rcases scanParameters_source h hk with hempty | ⟨hname, r, hread, hvalue⟩
  · cases hempty
  obtain ⟨pre, after, back, htext, hpre, hscan⟩ := hread
  obtain ⟨-, hsub, hkind⟩ := scanValue_spec hscan
  have hr : 0 ∉ r := by
    intro hmem
    refine hzero (List.mem_of_mem_tail ?_)
    rw [htext]
    simp [hsub 0 hmem]
  rw [unsafeValue_eq hr] at hvalue
  obtain rfl := utf16_injective hvalue
  have hrlast : r.getLast? = some backslash :=
    last_of_chars ⟨by decide, by decide⟩ (last_of_unescape (last_skipMark (last_skipMark hlast)))
  rcases hkind with hkind | ⟨hunquoted, rfl, hsemicolon⟩
  · exact hkind hrlast
  rcases hneeds with hneeds | hneeds
  · have hmem := (skipMark_sublist _).mem ((skipMark_sublist _).mem hneeds)
    rcases mem_unescape hmem with hmem | hmem | hmem | hmem
    · exact hsemicolon (mem_of_mem_chars (c := ';') ⟨by decide, by decide⟩ hmem)
    all_goals exact absurd hmem (by decide)
  · obtain ⟨out, hout⟩ := List.head?_eq_some_iff.mp hneeds
    obtain ⟨front, hfront, hmarks⟩ := marks_of_unescape hout
    obtain ⟨rest, rfl⟩ := raw_of_marks hmarks hfront
    cases front with
    | nil => exact hunquoted rfl
    | cons c front =>
      rw [List.append_assoc, List.cons_append] at htext
      have hfrontLast : ((c :: front).map (fun _ => mark)).getLast? = some mark := by
        rw [List.map_const', List.getLast?_replicate]
        rfl
      rcases written_segment hnames hname (by simp) (by simp [quote, mark])
        (by rw [hfrontLast]; decide) hpre htext with ⟨v', back', hmem, hv'⟩ | hend
      · have hsame := (OrderedMap.mem_entries_iff ps k v').mp hmem
        rw [hk] at hsame
        rw [← Option.some.inj hsame, quotedValue, if_pos hquoted] at hv'
        exact absurd (List.cons.inj hv').1 (show mark ≠ quote by decide)
      · cases rest with
        | nil =>
          rw [List.getLast?_concat] at hrlast
          exact absurd hrlast (by decide)
        | cons x rest =>
          rcases hend with hend | hend
          · cases hend
          · obtain rfl := Option.some.inj hend
            exact hsemicolon (by simp)

/-- The messages that the setters, the parameters and the lines of text make. -/
inductive Built : Message → Prop
  | new : Built {}
  | setSentFromServer {m m' : Message} (s : QString) :
      Built m → m.setSentFromServer s = .ok m' → Built m'
  | setSentFromService {m m' : Message} (s : QString) :
      Built m → m.setSentFromService s = .ok m' → Built m'
  | setServer {m m' : Message} (s : QString) : Built m → m.setServer s = .ok m' → Built m'
  | setService {m m' : Message} (s : QString) : Built m → m.setService s = .ok m' → Built m'
  | setCommand {m m' : Message} (s : QString) : Built m → m.setCommand s = .ok m' → Built m'
  | addParameter {m m' : Message} (name value : QString) :
      Built m → IsText value → m.addParameter name value = .ok m' → Built m'
  | toMessage {m m' : Message} {text : QString} :
      Built m → m.toMessage = .ok (text, m') → Built m'
  | fromMessage {m m' : Message} (text : QString) :
      Built m → m.fromMessage text = some m' → Built m'

structure Sane (m : Message) : Prop where
  sentFromServer : IsLatin m.fSentFromServer
  sentFromService : IsLatin m.fSentFromService
  server : IsClean m.fServer
  service : IsClean m.fService
  command : IsClean m.fCommand
  names : ∀ e ∈ m.fParameters.entries, IsName e.1
  values : ∀ e ∈ m.fParameters.entries, IsText e.2
  cached : m.fCachedMessage = [] ∨ m.fCachedMessage = m.write

theorem isLatin_of_plain (h : ∀ c ∈ s, IsPlain c) : IsLatin s :=
  fun c hc => (h c hc).lt

theorem sane_new : Sane {} where
  sentFromServer := fun _ hc => absurd hc List.not_mem_nil
  sentFromService := fun _ hc => absurd hc List.not_mem_nil
  server := isClean_nil
  service := isClean_nil
  command := isClean_nil
  names := fun _ he => absurd he List.not_mem_nil
  values := fun _ he => absurd he List.not_mem_nil
  cached := Or.inl rfl

/-- A setter that checks its value; the special names need no check. -/
theorem set_cases {old new : QString} {set : Message}
    {canBeEmpty canBeLowercase : Bool}
    (h : (if old ≠ new then do
        verifyName new canBeEmpty canBeLowercase
        return set
      else return m : Except QString Message) = .ok m') :
    m' = m ∨ m' = set ∧ ∀ c ∈ new, IsPlain c := by
  split_ifs at h with hsame
  · obtain ⟨u, hverify, h⟩ := bind_eq_ok h
    exact Or.inr ⟨(Except.ok.inj h).symm, (verifyName_ok hverify).2⟩
  · exact Or.inl (Except.ok.inj h).symm

theorem set_cases_special {old new : QString} {set : Message} {special : Prop}
    [Decidable special] {canBeEmpty canBeLowercase : Bool} (hspecial : ¬ special → IsClean new)
    (h : (if old ≠ new then do
        if special then verifyName new canBeEmpty canBeLowercase
        return set
      else return m : Except QString Message) = .ok m') :
    m' = m ∨ m' = set ∧ IsClean new := by
  by_cases hs : special
  · simp only [if_pos hs] at h
    rcases set_cases h with h | ⟨h, hplain⟩
    · exact Or.inl h
    · exact Or.inr ⟨h, isClean_of_plain hplain⟩
  · simp only [if_neg hs] at h
    split_ifs at h with hsame
    · exact Or.inr ⟨(Except.ok.inj h).symm, hspecial hs⟩
    · exact Or.inl (Except.ok.inj h).symm

theorem mem_insert_entries {m : OrderedMap QString QString} {v : QString} {e : QString × QString}
    (h : e ∈ (m.insert k v).entries) : e = (k, v) ∨ e ∈ m.entries :=
  OrderedMap.mem_insertEntry k v m.entries e h

theorem isClean_special (h : s = ascii "." ∨ s = ascii "*" ∨ s = ascii "?") :
    IsClean s := by
  rcases h with rfl | rfl | rfl <;> exact List.forall_iff_forall_mem.mp (by decide)

theorem zero_notMem_take (text : QString) : 0 ∉ text.takeWhile (· ≠ 0) := by
  intro hmem
  have hne := List.mem_takeWhile_imp hmem
  simp at hne

/-- The steps of reading a line of text. -/
theorem fromMessage_spec (h : m.fromMessage text = some m') :
    ∃ rest header back, scanSentFrom (text.takeWhile (· ≠ 0)) =
        some (m'.fSentFromServer, m'.fSentFromService, rest) ∧
      scanHeader rest {} = some (header, back) ∧ m'.fServer = header.server ∧
      m'.fService = header.service ∧ m'.fCommand = header.command ∧ m'.fCommand ≠ [] ∧
      scanParameters back.tail.length back.tail OrderedMap.empty = some m'.fParameters ∧
      m'.fCachedMessage = [] := by
  simp only [Message.fromMessage, Option.bind_eq_bind, Option.bind_eq_some_iff] at h
  obtain ⟨⟨server, service, rest⟩, hsent, ⟨header, back⟩, hheader, h⟩ := h
  split_ifs at h with hcommand
  obtain ⟨ps, hps, h⟩ := Option.bind_eq_some_iff.mp h
  obtain rfl := Option.some.inj h
  exact ⟨rest, header, back, hsent, hheader, rfl, rfl, rfl, by simpa using hcommand, hps, rfl⟩

theorem scanSentFrom_spec {s' : QString} (ht : 0 ∉ t)
    (h : scanSentFrom t = some (s, s', rest)) : IsLatin s ∧ IsLatin s' ∧ 0 ∉ rest := by
  by_cases hless : t.head? = some less
  · obtain ⟨t, rfl⟩ := List.head?_eq_some_iff.mp hless
    obtain ⟨p, q, rfl, rfl, rfl, -, -⟩ := scanSentFrom_less.mp h
    refine ⟨isLatin_map_lowByte p, isLatin_map_lowByte q, fun hmem => ht ?_⟩
    simp [hmem]
  · rw [scanSentFrom, if_neg hless] at h
    simp only [Option.some.injEq, Prod.mk.injEq] at h
    obtain ⟨rfl, rfl, rfl⟩ := h
    exact ⟨fun _ hc => absurd hc List.not_mem_nil, fun _ hc => absurd hc List.not_mem_nil, ht⟩

theorem fromMessage_sane (h : m.fromMessage text = some m') :
    Sane m' := by
  obtain ⟨rest, header, back, hsent, hheader, hserver, hservice, hcommand, -, hps, hcached⟩ :=
    fromMessage_spec h
  obtain ⟨hlatin, hlatin', hrest⟩ := scanSentFrom_spec (zero_notMem_take text) hsent
  obtain ⟨hclean, hback⟩ := scanHeader_clean hrest ⟨isClean_nil, isClean_nil, isClean_nil⟩ hheader
  have hparameters : ∀ e ∈ m'.fParameters.entries, IsName e.1 ∧ IsText e.2 := by
    intro e he
    obtain ⟨k, v⟩ := e
    rcases scanParameters_source hps ((OrderedMap.mem_entries_iff _ k v).mp he) with
      hempty | ⟨hname, r, ⟨pre, after, more, htext, -, hscan⟩, rfl⟩
    · cases hempty
    · refine ⟨hname, isText_unsafeValue (fun hmem => hback (List.mem_of_mem_tail ?_))⟩
      rw [htext]
      simp [(scanValue_spec hscan).2.1 0 hmem]
  exact {
    sentFromServer := hlatin
    sentFromService := hlatin'
    server := hserver ▸ hclean.server
    service := hservice ▸ hclean.service
    command := hcommand ▸ hclean.command
    names := fun e he => (hparameters e he).1
    values := fun e he => (hparameters e he).2
    cached := Or.inl hcached }

theorem setCommand_sane (hm : Sane m)
    (h : m.setCommand s = .ok m') : Sane m' := by
  unfold Message.setCommand at h
  cases hverify : verifyName s false false with
  | error e =>
    rw [hverify] at h
    cases h
  | ok u =>
    have hclean := isClean_of_plain (verifyName_ok hverify).2
    rw [hverify] at h
    change (if m.fCommand ≠ s then _ else _) = _ at h
    split_ifs at h with hsame
    · obtain rfl := Except.ok.inj h
      exact { hm with command := hclean, cached := Or.inl rfl }
    · obtain rfl := Except.ok.inj h
      exact hm

theorem addParameter_sane (hm : Sane m)
    (hvalue : IsText value) (h : m.addParameter name value = .ok m') : Sane m' := by
  unfold Message.addParameter at h
  cases hverify : verifyName name false true with
  | error e =>
    rw [hverify] at h
    cases h
  | ok u =>
    have hname : IsName name := by
      rw [IsName, hverify]
      rfl
    rw [hverify] at h
    obtain rfl := Except.ok.inj h
    refine { hm with names := fun e he => ?_, values := fun e he => ?_, cached := Or.inl rfl }
    · rcases mem_insert_entries he with rfl | he
      · exact hname
      · exact hm.names e he
    · rcases mem_insert_entries he with rfl | he
      · exact hvalue
      · exact hm.values e he

theorem toMessage_sane (hm : Sane m)
    (h : m.toMessage = .ok (text, m')) : text = m.write ∧ Sane m' := by
  unfold Message.toMessage at h
  split_ifs at h with hempty hcommand
  · obtain ⟨rfl, rfl⟩ := Prod.mk.inj (Except.ok.inj h)
    exact ⟨rfl, { hm with cached := Or.inr rfl }⟩
  · obtain ⟨rfl, rfl⟩ := Prod.mk.inj (Except.ok.inj h)
    rcases hm.cached with hcached | hcached
    · rw [hcached] at hempty
      exact absurd rfl hempty
    · exact ⟨hcached, hm⟩

theorem built_sane (h : Built m) : Sane m := by
  induction h with
  | new => exact sane_new
  | setSentFromServer s _ hset ih =>
    rcases set_cases hset with rfl | ⟨rfl, hplain⟩
    · exact ih
    · exact { ih with sentFromServer := isLatin_of_plain hplain, cached := Or.inl rfl }
  | setSentFromService s _ hset ih =>
    rcases set_cases hset with rfl | ⟨rfl, hplain⟩
    · exact ih
    · exact { ih with sentFromService := isLatin_of_plain hplain, cached := Or.inl rfl }
  | setServer s _ hset ih =>
    have hspecial : ¬ (s ≠ ascii "." ∧ s ≠ ascii "*") → IsClean s := fun hs =>
      isClean_special (by tauto)
    rcases set_cases_special hspecial hset with rfl | ⟨rfl, hclean⟩
    · exact ih
    · exact { ih with server := hclean, cached := Or.inl rfl }
  | setService s _ hset ih =>
    have hspecial : ¬ (s ≠ ascii "*" ∧ s ≠ ascii "?" ∧ s ≠ ascii ".") → IsClean s := fun hs =>
      isClean_special (by tauto)
    rcases set_cases_special hspecial hset with rfl | ⟨rfl, hclean⟩
    · exact ih
    · exact { ih with service := hclean, cached := Or.inl rfl }
  | setCommand s _ hset ih => exact setCommand_sane ih hset
  | addParameter name value _ hvalue hset ih => exact addParameter_sane ih hvalue hset
  | toMessage _ hto ih => exact (toMessage_sane ih hto).2
  | fromMessage text _ hfrom _ => exact fromMessage_sane hfrom

/-- Two messages agree: the server counts only along with a service. -/
structure Faithful (m m' : Message) : Prop where
  sentFromServer : m'.fSentFromServer = m.fSentFromServer
  sentFromService : m'.fSentFromService = m.fSentFromService
  server : m.fService ≠ [] → m'.fServer = m.fServer
  service : m'.fService = m.fService
  command : m'.fCommand = m.fCommand
  parameters : m'.fParameters = m.fParameters

def RoundTrips (m : Message) : Prop :=
  ∃ text m₁ m', m.toMessage = .ok (text, m₁) ∧ Message.fromMessage text {} = some m' ∧ Faithful m m'

def firstName (m : Message) : QString :=
  if m.fService = [] then m.fCommand else if m.fServer = [] then m.fService else m.fServer

/-- The names of the sender end where they should, and without a sender the first
name does not look like one. -/
structure Signed (m : Message) : Prop where
  sentFromServer : ∀ c ∈ m.fSentFromServer, c ∉ [0, space, colon]
  sentFromService : ∀ c ∈ m.fSentFromService, c ∉ [0, space]
  firstName : m.fSentFromServer = [] → m.fSentFromService = [] →
    (firstName m).head? ≠ some less

/-- The messages that survive: no value starts with a byte order mark, and no value
that is written between quotes ends with a backslash. -/
structure Readable (m : Message) : Prop extends Signed m where
  unmarked : ∀ e ∈ m.fParameters.entries, e.2.head? ≠ some mark
  quoted : ∀ e ∈ m.fParameters.entries, NeedsQuotes e.2 → e.2.getLast? ≠ some backslash

theorem writeHeader_head (h : m.fCommand ≠ []) :
    m.writeHeader.head? = (firstName m).head? ∧ m.writeHeader ≠ [] := by
  unfold Message.writeHeader firstName
  by_cases hservice : m.fService = []
  · simp [hservice, h]
  · by_cases hserver : m.fServer = []
    · obtain ⟨c, s, hs⟩ := List.exists_cons_of_ne_nil hservice
      simp [hserver, hs]
    · obtain ⟨c, s, hs⟩ := List.exists_cons_of_ne_nil hserver
      simp [hservice, hs]

theorem writeParameters_space (l : List (QString × QString)) :
    writeParameters true l = [] ∨ (writeParameters true l).head? = some space := by
  cases l with
  | nil => exact Or.inl rfl
  | cons e rest => exact Or.inr rfl

theorem zero_notMem_quotedValue (h : 0 ∉ s) : 0 ∉ quotedValue s := by
  have hescape : 0 ∉ escapeQuotes s := by
    intro hmem
    obtain ⟨c, hc, hmem⟩ := List.mem_flatMap.mp hmem
    split_ifs at hmem
    · exact absurd hmem (by decide)
    · exact h (List.mem_singleton.mp hmem ▸ hc)
  unfold quotedValue
  split_ifs
  · simp only [List.mem_append, List.mem_cons, List.not_mem_nil, or_false, not_or]
    exact ⟨⟨by decide, hescape⟩, by decide⟩
  · exact h

theorem zero_notMem_writeParameters (b : Bool) {l : List (QString × QString)}
    (hnames : ∀ e ∈ l, IsName e.1) (hvalues : ∀ e ∈ l, IsText e.2) : 0 ∉ writeParameters b l := by
  induction l generalizing b with
  | nil => exact List.not_mem_nil
  | cons e rest ih =>
    obtain ⟨name, value⟩ := e
    have hname : 0 ∉ name := fun hmem =>
      ((hnames (name, value) List.mem_cons_self).spec.2 0 hmem).ne (by decide)
    have hvalue := zero_notMem_quotedValue
      (zero_notMem_safeValue (hvalues (name, value) List.mem_cons_self))
    have hrest := ih false (List.forall_mem_cons.mp hnames).2
      (List.forall_mem_cons.mp hvalues).2
    simp only [writeParameters, List.cons_append, List.mem_cons, List.mem_append, not_or]
    refine ⟨?_, ⟨hname, by decide, hvalue⟩, hrest⟩
    split_ifs <;> decide

theorem zero_notMem_clean (h : IsClean s) : 0 ∉ s := fun hmem =>
  h 0 hmem (by simp)

theorem zero_notMem_writeHeader (hm : Sane m) : 0 ∉ m.writeHeader := by
  have hserver := zero_notMem_clean hm.server
  have hservice := zero_notMem_clean hm.service
  have hcommand := zero_notMem_clean hm.command
  unfold Message.writeHeader
  split_ifs <;> simp [hserver, hservice, hcommand, colon, slash]

def body (m : Message) : QString := m.writeHeader ++ writeParameters true m.fParameters.entries

theorem zero_notMem_body (hm : Sane m) : 0 ∉ body m := by
  rw [body, List.mem_append, not_or]
  exact ⟨zero_notMem_writeHeader hm, zero_notMem_writeParameters true hm.names hm.values⟩

theorem write_eq (m : Message) : m.write = m.writeSentFrom ++ body m := List.append_assoc ..

theorem takeWhile_of_notMem (h : 0 ∉ s) : s.takeWhile (· ≠ 0) = s := by
  refine List.takeWhile_eq_self_iff.mpr (fun c hc => decide_eq_true ?_)
  rintro rfl
  exact h hc

theorem writeSentFrom_eq (h : m.fSentFromServer ≠ [] ∨ m.fSentFromService ≠ []) :
    m.write = less :: (m.fSentFromServer ++ colon :: (m.fSentFromService ++ space :: body m)) := by
  rw [write_eq, Message.writeSentFrom, if_pos h]
  simp

/-- A signed message is read up to the names in front of the parameters. -/
theorem scanSentFrom_write (hm : Sane m) (hcommand : m.fCommand ≠ [])
    (h : Signed m) : scanSentFrom (m.write.takeWhile (· ≠ 0)) =
      some (m.fSentFromServer, m.fSentFromService, body m) := by
  have hbody := zero_notMem_body hm
  by_cases hsent : m.fSentFromServer ≠ [] ∨ m.fSentFromService ≠ []
  · have hserver : ∀ c ∈ m.fSentFromServer, c ≠ colon ∧ c ≠ space := fun c hc =>
      ⟨fun heq => h.sentFromServer c hc (by simp [heq]),
        fun heq => h.sentFromServer c hc (by simp [heq])⟩
    have hservice : ∀ c ∈ m.fSentFromService, c ≠ space := fun c hc heq =>
      h.sentFromService c hc (by simp [heq])
    have hzero : 0 ∉ m.write := by
      rw [writeSentFrom_eq hsent]
      simp only [List.mem_cons, List.mem_append, not_or]
      exact ⟨by decide, fun hmem => h.sentFromServer 0 hmem (by simp), by decide,
        fun hmem => h.sentFromService 0 hmem (by simp), by decide, hbody⟩
    rw [takeWhile_of_notMem hzero, writeSentFrom_eq hsent]
    exact scanSentFrom_less.mpr ⟨m.fSentFromServer, m.fSentFromService, rfl,
      (map_lowByte hm.sentFromServer).symm, (map_lowByte hm.sentFromService).symm,
        hserver, hservice⟩
  · rw [not_or, not_not, not_not] at hsent
    have hwrite : m.write = body m := by
      rw [write_eq, Message.writeSentFrom, if_neg (by simp [hsent])]
      rfl
    have hhead : (body m).head? ≠ some less := by
      rw [body, List.head?_append_of_ne_nil _ (writeHeader_head hcommand).2,
        (writeHeader_head hcommand).1]
      exact h.firstName hsent.1 hsent.2
    rw [hwrite, takeWhile_of_notMem hbody, scanSentFrom, if_neg hhead, hsent.1, hsent.2]

theorem after_name {x : UInt16} (hname : IsClean name) (hne : name ≠ [])
    (h : name ++ t = x :: colon :: rest) : t = colon :: rest := by
  obtain ⟨c, s, rfl⟩ := List.exists_cons_of_ne_nil hne
  cases s with
  | nil => exact (List.cons.inj h).2
  | cons d s =>
    obtain rfl := (List.cons.inj (List.cons.inj h).2).1
    exact absurd (by simp) (hname colon (by simp))

/-- The first name of a message is followed by a slash, by the parameters, or by a
colon and a service. -/
theorem body_ne (hm : Sane m) (hcommand : m.fCommand ≠ []) (x : UInt16)
    (rest : QString) : body m ≠ x :: colon :: space :: rest := by
  intro h
  rw [body, Message.writeHeader] at h
  by_cases hservice : m.fService = []
  · simp only [hservice, ne_eq, not_true_eq_false, if_false, List.nil_append] at h
    have hparameters := after_name hm.command hcommand h
    rcases writeParameters_space m.fParameters.entries with hnil | hspace
    · rw [hnil] at hparameters
      cases hparameters
    · rw [hparameters, List.head?_cons] at hspace
      exact absurd hspace (by decide)
  · by_cases hserver : m.fServer = []
    · simp only [hservice, hserver, ne_eq, not_true_eq_false, not_false_eq_true, if_true, if_false,
        List.nil_append, List.append_assoc] at h
      exact absurd (List.cons.inj (after_name hm.service hservice h)).1 (by decide)
    · simp only [hservice, hserver, ne_eq, not_false_eq_true, if_true, List.append_assoc] at h
      have hback := (List.cons.inj (after_name hm.server hserver h)).2
      obtain ⟨c, s, hs⟩ := List.exists_cons_of_ne_nil hservice
      rw [hs] at hback
      obtain rfl := (List.cons.inj hback).1
      exact hm.service space (by simp [hs]) (by simp)

/-- A message whose sender is read back is signed. -/
theorem signed_of_scanSentFrom (hm : Sane m) (hcommand : m.fCommand ≠ [])
    (h : scanSentFrom (m.write.takeWhile (· ≠ 0)) =
      some (m.fSentFromServer, m.fSentFromService, rest)) : Signed m := by
  by_cases hsent : m.fSentFromServer ≠ [] ∨ m.fSentFromService ≠ []
  · -- the names that were read have the lengths of those that were written
    obtain ⟨more, hmore⟩ := List.takeWhile_prefix (l := m.write) (fun c => decide (c ≠ 0))
    have hzero := zero_notMem_take m.write
    have htake : m.write.takeWhile (· ≠ 0) = less :: (m.fSentFromServer ++ colon ::
        (m.fSentFromService ++ space :: body m)).takeWhile (· ≠ 0) := by
      rw [writeSentFrom_eq hsent]
      rfl
    rw [htake] at h hmore hzero
    rw [writeSentFrom_eq hsent] at hmore
    obtain ⟨p, q, htext, hp, hq, hcolon, hspace⟩ := scanSentFrom_less.mp h
    rw [htext] at hmore hzero
    simp only [List.cons_append, List.append_assoc, List.cons.injEq, true_and] at hmore
    obtain ⟨hserver, hrest⟩ := List.append_inj hmore (by rw [hp, List.length_map])
    obtain ⟨hservice, -⟩ := List.append_inj (List.cons.inj hrest).2 (by rw [hq, List.length_map])
    simp only [List.mem_cons, List.mem_append, not_or] at hzero
    subst hserver hservice
    refine ⟨fun c hc => ?_, fun c hc => ?_, fun h₁ h₂ => absurd hsent (by simp [h₁, h₂])⟩
    · simp only [List.mem_cons, List.not_mem_nil, or_false, not_or]
      exact ⟨fun heq => hzero.2.1 (heq ▸ hc), (hcolon c hc).2, (hcolon c hc).1⟩
    · simp only [List.mem_cons, List.not_mem_nil, or_false, not_or]
      exact ⟨fun heq => hzero.2.2.2.1 (heq ▸ hc), hspace c hc⟩
  · rw [not_or, not_not, not_not] at hsent
    rw [hsent.1, hsent.2] at h
    have hwrite : m.write = body m := by
      rw [write_eq, Message.writeSentFrom, if_neg (by simp [hsent])]
      rfl
    rw [hwrite, takeWhile_of_notMem (zero_notMem_body hm)] at h
    refine ⟨by simp [hsent.1], by simp [hsent.2], fun _ _ hless => ?_⟩
    have hhead : (body m).head? = some less := by
      rw [body, List.head?_append_of_ne_nil _ (writeHeader_head hcommand).2,
        (writeHeader_head hcommand).1]
      exact hless
    obtain ⟨t, ht⟩ := List.head?_eq_some_iff.mp hhead
    rw [ht] at h
    obtain ⟨p, q, rfl, hp, hq, -, -⟩ := scanSentFrom_less.mp h
    obtain rfl := List.map_eq_nil_iff.mp hp.symm
    obtain rfl := List.map_eq_nil_iff.mp hq.symm
    exact body_ne hm hcommand less rest ht

/-- With the sender out of the way, reading comes down to the parameters. -/
theorem fromMessage_write (hm : Sane m) (hcommand : m.fCommand ≠ []) (h : Signed m) :
    ∃ server, (m.fService ≠ [] → server = m.fServer) ∧
      Message.fromMessage m.write {} =
        (scanParameters (writeParameters true m.fParameters.entries).tail.length
          (writeParameters true m.fParameters.entries).tail OrderedMap.empty).map (fun ps => {
            fSentFromServer := m.fSentFromServer
            fSentFromService := m.fSentFromService
            fServer := server
            fService := m.fService
            fCommand := m.fCommand
            fParameters := ps }) := by
  obtain ⟨header, hscan, hserver, hservice, hheader⟩ := scanHeader_writeHeader hm.server hm.service
    hm.command (writeParameters_space m.fParameters.entries)
  refine ⟨header.server, hserver, ?_⟩
  have hne : ¬ header.command.isEmpty = true := by simpa [hheader] using hcommand
  rw [Message.fromMessage, scanSentFrom_write hm hcommand h]
  simp only [Option.bind_eq_bind, Option.bind_some, body, hscan, if_neg hne]
  rw [hservice, hheader]
  cases scanParameters (writeParameters true m.fParameters.entries).tail.length
    (writeParameters true m.fParameters.entries).tail OrderedMap.empty <;> rfl

theorem toMessage_write (hm : Sane m) (hcommand : m.fCommand ≠ []) :
    ∃ m₁, m.toMessage = .ok (m.write, m₁) := by
  cases hto : m.toMessage with
  | error e =>
    unfold Message.toMessage at hto
    split_ifs at hto with hempty hnone
    exact absurd (by simpa using hnone) hcommand
  | ok r =>
    obtain ⟨text, m₁⟩ := r
    exact ⟨m₁, by rw [(toMessage_sane hm hto).1]⟩

/-- A value without a byte order mark is quoted, and ends, as it is written. -/
theorem quoted_iff (hvalue : IsText value) (hmark : value.head? ≠ some mark) :
    (NeedsQuotes (safeValue value) ↔ NeedsQuotes value) ∧
      ((safeValue value).getLast? = some backslash ↔ value.getLast? = some backslash) ∧
      unsafeValue (safeValue value) = value := by
  obtain ⟨cs, hnul, rfl⟩ := hvalue
  have hskip : skipMark cs = cs := by
    rw [skipMark_eq_self]
    intro hhead
    exact hmark ((head_utf16 (c := byteOrderMark) ⟨by decide, by decide⟩).mpr hhead)
  rw [unsafeValue_safeValue hnul, safeValue_utf16 hnul, hskip, hskip]
  exact ⟨needsQuotes_escape cs, last_backslash_escape cs, rfl⟩

theorem unmarked_of_unsafeValue (hvalue : IsText value)
    (h : unsafeValue (safeValue value) = value) : value.head? ≠ some mark := by
  obtain ⟨cs, hnul, rfl⟩ := hvalue
  rw [unsafeValue_safeValue hnul] at h
  have hlength : (skipMark (skipMark cs)).length = cs.length := by rw [utf16_injective h]
  intro hhead
  have hmark : cs.head? = some byteOrderMark :=
    (head_utf16 ⟨by decide, by decide⟩).mp hhead
  obtain ⟨rest, rfl⟩ := List.head?_eq_some_iff.mp hmark
  have hshort := length_skipMark rest
  rw [skipMark, if_pos rfl, List.length_cons] at hlength
  omega

/-- The parameters are read back exactly when their values allow it. -/
theorem scanParameters_iff (hm : Sane m) :
    scanParameters (writeParameters true m.fParameters.entries).tail.length
        (writeParameters true m.fParameters.entries).tail OrderedMap.empty = some m.fParameters ↔
      (∀ e ∈ m.fParameters.entries, e.2.head? ≠ some mark) ∧
        ∀ e ∈ m.fParameters.entries, NeedsQuotes e.2 → e.2.getLast? ≠ some backslash := by
  constructor
  · intro h
    have hquoted := quoted_of_scanParameters hm.names hm.values
      (zero_notMem_writeParameters true hm.names hm.values) h
    rw [scanParameters_write true _ _ _ hm.names hquoted le_rfl] at h
    have hmark : ∀ e ∈ m.fParameters.entries, e.2.head? ≠ some mark := by
      intro e he
      refine unmarked_of_unsafeValue (hm.values e he) ?_
      have hfind := (OrderedMap.mem_entries_iff m.fParameters e.1 e.2).mp he
      have hmap := find?_rebuild (fun v => unsafeValue (safeValue v)) m.fParameters e.1
      rw [Option.some.inj h, hfind] at hmap
      exact (Option.some.inj hmap).symm
    refine ⟨hmark, fun e he hneeds hlast => ?_⟩
    obtain ⟨hneedsIff, hlastIff, -⟩ := quoted_iff (hm.values e he) (hmark e he)
    exact hquoted e he (hneedsIff.mpr hneeds) (hlastIff.mpr hlast)
  · rintro ⟨hmark, hquoted⟩
    rw [scanParameters_write true _ _ _ hm.names (fun e he hneeds hlast => ?_) le_rfl]
    · congr 1
      refine OrderedMap.ext_find? _ _ (fun k => ?_)
      rw [find?_rebuild (fun v => unsafeValue (safeValue v)) m.fParameters k]
      cases hfind : m.fParameters.find? k with
      | none => rfl
      | some v =>
        have he := (OrderedMap.mem_entries_iff m.fParameters k v).mpr hfind
        exact congrArg some (quoted_iff (hm.values _ he) (hmark _ he)).2.2
    · obtain ⟨hneedsIff, hlastIff, -⟩ := quoted_iff (hm.values e he) (hmark e he)
      exact hquoted e he (hneedsIff.mp hneeds) (hlastIff.mp hlast)

/-- A message with a command is read back from its text if and only if no value
starts with a byte order mark, no quoted value ends with a backslash, and its sender
can be told from the rest. -/
theorem roundTrips_iff_readable (m : Message) (hbuilt : Built m) (hcommand : m.fCommand ≠ []) :
    RoundTrips m ↔ Readable m := by
  have hm := built_sane hbuilt
  constructor
  · rintro ⟨text, m₁, m', hto, hfrom, hfaithful⟩
    obtain ⟨rfl, -⟩ := toMessage_sane hm hto
    obtain ⟨rest, header, back, hsent, -⟩ := fromMessage_spec hfrom
    rw [hfaithful.sentFromServer, hfaithful.sentFromService] at hsent
    have hsigned := signed_of_scanSentFrom hm hcommand hsent
    obtain ⟨server, -, hread⟩ := fromMessage_write hm hcommand hsigned
    rw [hread] at hfrom
    obtain ⟨ps, hps, rfl⟩ := Option.map_eq_some_iff.mp hfrom
    rw [show ps = m.fParameters from hfaithful.parameters] at hps
    obtain ⟨hmark, hquoted⟩ := (scanParameters_iff hm).mp hps
    exact { hsigned with unmarked := hmark, quoted := hquoted }
  · intro h
    obtain ⟨m₁, hto⟩ := toMessage_write hm hcommand
    obtain ⟨server, hserver, hread⟩ := fromMessage_write hm hcommand h.toSigned
    rw [(scanParameters_iff hm).mpr ⟨h.unmarked, h.quoted⟩, Option.map_some] at hread
    exact ⟨m.write, m₁, _, hto, hread, rfl, rfl, hserver, rfl, rfl, rfl⟩

def pathMessage (value : QString) : Message where
  fCommand := ascii "OPEN"
  fParameters := OrderedMap.empty.insert (ascii "path") value

theorem pathMessage_built {cs : List Char} (h : nul ∉ cs) : Built (pathMessage (utf16 cs)) := by
  refine Built.addParameter (m := { fCommand := ascii "OPEN" }) (ascii "path") (utf16 cs) ?_
    ⟨cs, h, rfl⟩ rfl
  exact Built.setCommand (ascii "OPEN") Built.new rfl

theorem roundTrips_iff_readable_path :
    RoundTrips (pathMessage (utf16 ['a', ';', '\\', 'b'])) := by
  refine (roundTrips_iff_readable _ (pathMessage_built (by decide)) (by decide)).mpr ?_
  exact {
    sentFromServer := by simp [pathMessage]
    sentFromService := by simp [pathMessage]
    firstName := by decide
    unmarked := by decide
    quoted := by decide }

/-- The closing quote of a value that ends with a backslash is taken for a quote
inside the value. -/
theorem quoted_backslash_lost : ∃ m, Built m ∧ m.fCommand ≠ [] ∧ ¬ RoundTrips m := by
  refine ⟨pathMessage (utf16 [';', '\\']), pathMessage_built (by decide), by decide, ?_⟩
  rintro ⟨text, m₁, m', hto, hfrom, -⟩
  have htext : text = (pathMessage (utf16 [';', '\\'])).write :=
    (Prod.mk.inj (Except.ok.inj hto)).1.symm
  have hnone : (Message.fromMessage (pathMessage (utf16 [';', '\\'])).write {}).isNone = true := by
    decide
  rw [← htext, hfrom] at hnone
  cases hnone

end SnapCpp.MessageReadable
