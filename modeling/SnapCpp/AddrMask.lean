import SnapCpp.AddrRoundTrip
import SnapCpp.ByteBits

/-!
An address with a number of bits as its mask stands for the addresses of its family that start
with the same bits. The parser gives that mask to every answer of the resolver, or refuses each
of them.
-/
namespace SnapCpp.AddrMask

open QString QNumber AddrParser AddrRoundTrip ByteBits
open SnapAddr (colon)

/-- `addr::match()`. -/
def addrMatch (a ip : Addr) : Bool :=
  decide (∀ i : Fin 16, a.address[i] &&& a.mask[i] = ip.address[i] &&& a.mask[i])

def applyMask (a : Addr) : Addr := { a with address := Vector.zipWith (· &&& ·) a.address a.mask }

theorem addrMatch_iff {a ip : Addr} : addrMatch a ip = true ↔
    List.zipWith (· &&& ·) a.address.toList a.mask.toList =
      List.zipWith (· &&& ·) ip.address.toList a.mask.toList := by
  rw [addrMatch, decide_eq_true_iff]
  constructor
  · intro h
    refine List.ext_getElem (by simp) fun i hi _ => ?_
    have hlt : i < 16 := by simpa using hi
    simpa using h ⟨i, hlt⟩
  · intro h i
    have hget := congrArg (·[i.val]?) h
    simpa using hget

theorem applyMask_toList (a : Addr) : (applyMask a).address.toList =
    List.zipWith (· &&& ·) a.address.toList a.mask.toList := by
  simp [applyMask]

def familyBits (ipv4 : Bool) (ip : Vector UInt8 16) : List Bool :=
  if ipv4 then bits (ip.toList.drop 12) else bits ip.toList

def familySize (ipv4 : Bool) : ℕ := if ipv4 then 32 else 128

def frontSize (ipv4 : Bool) : ℕ := if ipv4 then 96 else 0

theorem frontSize_add (ipv4 : Bool) : frontSize ipv4 + familySize ipv4 = 128 := by
  cases ipv4 <;> rfl

theorem bits_eq (ipv4 : Bool) (ip : Vector UInt8 16) :
    bits ip.toList = (bits ip.toList).take (frontSize ipv4) ++ familyBits ipv4 ip := by
  cases ipv4 with
  | false => rfl
  | true =>
    have hcut : bits ip.toList = bits (ip.toList.take 12) ++ bits (ip.toList.drop 12) := by
      rw [← bits_append, List.take_append_drop]
    have hlength : (bits (ip.toList.take 12)).length = 96 := by simp
    have hfront : (bits ip.toList).take (frontSize true) = bits (ip.toList.take 12) := by
      rw [hcut]
      exact List.take_left' hlength
    rw [hfront]
    exact hcut

theorem byteBits_shift {count : ℕ} (h : count ≤ 8) : byteBits (UInt8.ofNat (255 <<< count)) =
    List.replicate (8 - count) true ++ List.replicate count false := by
  interval_cases count <;> decide

theorem bits_replicate (n : ℕ) : bits (List.replicate n 255) = List.replicate (8 * n) true := by
  induction n with
  | zero => rfl
  | succ n ih =>
    have hbyte : byteBits 255 = List.replicate 8 true := by decide
    rw [List.replicate_succ, bits_cons, ih, hbyte, ← List.replicate_add]
    congr 1
    omega

theorem bits_clearBits (count n : ℕ) (h : count ≤ 8 * (n + 1)) :
    bits (clearBits count (List.replicate (n + 1) 255)).reverse =
      List.replicate (8 * (n + 1) - count) true ++ List.replicate count false := by
  induction n generalizing count with
  | zero =>
    have hle : ¬ 8 < count := by omega
    simp only [List.replicate_succ, List.replicate_zero, clearBits, if_neg hle]
    simpa using byteBits_shift (by omega : count ≤ 8)
  | succ n ih =>
    rw [List.replicate_succ, clearBits]
    split_ifs with hlt
    · have hbyte : byteBits 0 = List.replicate 8 false := by decide
      rw [List.reverse_cons, bits_append, ih (count - 8) (by omega), bits_cons, bits_nil,
        List.append_nil, hbyte, List.append_assoc, ← List.replicate_add]
      congr 2 <;> omega
    · rw [List.reverse_cons, List.reverse_replicate, bits_append, bits_replicate, bits_cons,
        bits_nil, List.append_nil, byteBits_shift (by omega), ← List.append_assoc,
        ← List.replicate_add]
      congr 2
      omega

theorem bits_maskBits {count : ℕ} (h : count ≤ 128) : bits (maskBits count).toList =
    List.replicate (128 - count) true ++ List.replicate count false := by
  have hones : allOnes.toList.reverse = List.replicate (15 + 1) 255 := by decide
  have hlist : (maskBits count).toList =
      (clearBits count (List.replicate (15 + 1) 255)).reverse := by
    rw [← hones]
    simp [maskBits]
  rw [hlist]
  exact bits_clearBits count 15 h

theorem take_bits (ipv4 : Bool) (ip : Vector UInt8 16) (n : ℕ) :
    (bits ip.toList).take (frontSize ipv4 + n) =
      (bits ip.toList).take (frontSize ipv4) ++ (familyBits ipv4 ip).take n := by
  have hlength : ((bits ip.toList).take (frontSize ipv4)).length = frontSize ipv4 := by
    have hsize := frontSize_add ipv4
    rw [List.length_take, length_bits, Vector.length_toList]
    omega
  have htake : ((bits ip.toList).take (frontSize ipv4) ++ familyBits ipv4 ip).take
      (((bits ip.toList).take (frontSize ipv4)).length + n) =
        (bits ip.toList).take (frontSize ipv4) ++ (familyBits ipv4 ip).take n :=
    List.take_length_add_append n
  rwa [← bits_eq, hlength] at htake

theorem take_bits_ipv4 (ip : Vector UInt8 16) :
    (bits ip.toList).take (frontSize true) = bits (ip.toList.take 12) := by
  have hlength : (bits (ip.toList.take 12)).length = 96 := by simp
  have hcut : bits ip.toList = bits (ip.toList.take 12) ++ bits (ip.toList.drop 12) := by
    rw [← bits_append, List.take_append_drop]
  rw [hcut]
  exact List.take_left' hlength

theorem take_frontSize {a b : Addr} (h : isIpv4 a = isIpv4 b) :
    (bits a.address.toList).take (frontSize (isIpv4 a)) =
      (bits b.address.toList).take (frontSize (isIpv4 a)) := by
  cases ha : isIpv4 a with
  | false => simp [frontSize]
  | true =>
    have hb := h.symm.trans ha
    rw [isIpv4, beq_iff_eq] at ha hb
    rw [take_bits_ipv4, take_bits_ipv4, ha, hb]

section Masks

variable {r ip : Addr} {n : ℕ}

/-- A range with a mask of `n` bits: one that is as long as the family allows. -/
structure Masked (r : Addr) (n : ℕ) : Prop where
  le : n ≤ familySize (isIpv4 r)
  mask : r.mask = maskBits (familySize (isIpv4 r) - n)

theorem Masked.bits_mask (h : Masked r n) : bits r.mask.toList =
    List.replicate (frontSize (isIpv4 r) + n) true ++
      List.replicate (familySize (isIpv4 r) - n) false := by
  have hle := h.le
  have hsize := frontSize_add (isIpv4 r)
  rw [h.mask, bits_maskBits (by omega)]
  congr 2
  omega

theorem Masked.length_eq (h : Masked r n) (ip : Vector UInt8 16) : (bits ip.toList).length =
    frontSize (isIpv4 r) + n + (familySize (isIpv4 r) - n) := by
  have hle := h.le
  have hsize := frontSize_add (isIpv4 r)
  rw [length_bits, Vector.length_toList]
  omega

theorem Masked.addrMatch_iff_take (h : Masked r n) : addrMatch r ip = true ↔
    (bits r.address.toList).take (frontSize (isIpv4 r) + n) =
      (bits ip.address.toList).take (frontSize (isIpv4 r) + n) := by
  have hlength : ∀ ip : Addr, ip.address.toList.length = r.mask.toList.length := by simp
  rw [addrMatch_iff, ← zipWith_and_mask_eq_iff (h.length_eq _) (h.length_eq _), ← h.bits_mask,
    ← bits_and (hlength r), ← bits_and (hlength ip)]
  exact ⟨congrArg bits, bits_injective (by simp)⟩

theorem Masked.addrMatch_iff_prefix (h : Masked r n) (hfamily : isIpv4 ip = isIpv4 r) :
    addrMatch r ip = true ↔ (familyBits (isIpv4 r) r.address).take n =
      (familyBits (isIpv4 r) ip.address).take n := by
  rw [h.addrMatch_iff_take, take_bits, take_bits, take_frontSize hfamily.symm,
    List.append_cancel_left_eq]

theorem Masked.addrMatch_ipv6 (h : Masked r n) (hr : isIpv4 r = true) (hip : isIpv4 ip = false) :
    addrMatch r ip = false := by
  rw [Bool.eq_false_iff]
  intro htrue
  rw [h.addrMatch_iff_take, hr, take_bits, take_bits] at htrue
  have hfront := (List.append_inj htrue (by simp)).1
  rw [take_bits_ipv4, take_bits_ipv4] at hfront
  have hbytes := bits_injective (by simp) hfront
  rw [isIpv4, beq_iff_eq] at hr
  rw [isIpv4, ← hbytes, hr] at hip
  cases hip

/-- The bits behind the first ones are cleared, and no others. -/
theorem Masked.bits_applyMask (h : Masked r n) :
    (isIpv4 r = true → isIpv4 (applyMask r) = true) ∧
    familyBits (isIpv4 r) (applyMask r).address =
      (familyBits (isIpv4 r) r.address).take n ++
        List.replicate (familySize (isIpv4 r) - n) false := by
  have hlength : r.address.toList.length = r.mask.toList.length := by simp
  have hall : bits (applyMask r).address.toList =
      (bits r.address.toList).take (frontSize (isIpv4 r)) ++
        ((familyBits (isIpv4 r) r.address).take n ++
          List.replicate (familySize (isIpv4 r) - n) false) := by
    rw [applyMask_toList, bits_and hlength, h.bits_mask, zipWith_and_mask (h.length_eq _),
      take_bits, List.append_assoc]
  rw [bits_eq (isIpv4 r)] at hall
  obtain ⟨hfront, hback⟩ := List.append_inj hall (by simp)
  refine ⟨fun hr => ?_, hback⟩
  rw [hr, take_bits_ipv4, take_bits_ipv4] at hfront
  have hbytes := bits_injective (by simp) hfront
  rw [isIpv4, beq_iff_eq] at hr ⊢
  rw [hbytes, hr]

end Masks

section Numbers

/-- What the digits of a mask say, unless the number is above the maximum. -/
theorem scanNumber_digits {w : QString} (hw : ∀ c ∈ w, isDigit c = true) (n : ℕ) (hn : n ≤ 1000) :
    scanNumber n w = if w.foldl (fun n c => 10 * n + digitValue c) n ≤ 1000 then
      .number (w.foldl (fun n c => 10 * n + digitValue c) n) else .tooLarge := by
  induction w generalizing n with
  | nil => rw [List.foldl_nil, if_pos hn, scanNumber]
  | cons c w ih =>
    obtain ⟨hc, hw⟩ := List.forall_mem_cons.mp hw
    have hle := le_foldl_digits w (10 * n + digitValue c)
    rw [scanNumber, if_pos hc, List.foldl_cons]
    split_ifs with htoo hfold hfold
    · omega
    · rfl
    · rw [ih hw _ (by omega), if_pos hfold]
    · rw [ih hw _ (by omega), if_neg hfold]

theorem scanNumber_decimal (n : ℕ) :
    scanNumber 0 (decimal n) = if n ≤ 1000 then .number n else .tooLarge := by
  have hvalue := readDigits_decimal n
  rw [readDigits] at hvalue
  rw [scanNumber_digits (isDigit_of_mem_decimal n) 0 (by omega), hvalue]

theorem cStr_decimal (n : ℕ) : cStr (decimal n) = decimal n :=
  cStr_of_notMem fun hmem => absurd (isDigit_of_mem_decimal _ _ hmem) (by decide)

variable {getaddrinfo : GetAddrInfo} {a : Addr} {n : ℕ}

theorem parseMask_decimal_le (h : n ≤ familySize (isIpv4 a)) :
    parseMask getaddrinfo (decimal n) a =
      .ok { a with mask := maskBits (familySize (isIpv4 a) - n) } := by
  have hsize := frontSize_add (isIpv4 a)
  rw [parseMask, if_neg (decimal_ne_nil n), cStr_decimal, scanNumber_decimal,
    if_pos (by omega)]
  exact if_neg (Nat.not_lt.mpr h)

theorem parseMask_decimal_lt (h : familySize (isIpv4 a) < n) :
    ∃ message, parseMask getaddrinfo (decimal n) a = .error message := by
  rw [parseMask, if_neg (decimal_ne_nil n), cStr_decimal, scanNumber_decimal]
  by_cases hn : n ≤ 1000
  · rw [if_pos hn]
    exact ⟨_, if_pos h⟩
  · rw [if_neg hn]
    exact ⟨_, rfl⟩

end Numbers

section Reading

/-- `getaddrinfo()` answers the text of an address with that address, once where a protocol is
asked for and once for each kind of socket otherwise. -/
def Resolves (getaddrinfo : GetAddrInfo) (ipv4 : Bool) (ip : Vector UInt8 16) : Prop :=
  ∀ (service : QString) (hints : Hints), (service = [] ∨ ∃ port, service = portText port) →
    ∃ infos, getaddrinfo (hostText ipv4 ip) service hints = .ok infos ∧ infos ≠ [] ∧
      (∀ info ∈ infos, ∃ port protocol, info = answer ipv4 ip port protocol) ∧
      (hints.protocol ≠ none → infos.length = 1)

def IsFound (a r : Addr) : Prop := r.address = a.address ∧ r.mask = allOnes

variable {getaddrinfo : GetAddrInfo} {p : Parser} {a : Addr} {n : ℕ}

theorem readInfo_answer (first : Bool) (port : UInt16) (protocol : Protocol) :
    readInfo first (answer (isIpv4 a) a.address port protocol) =
      ⟨[], [⟨a.address, port, allOnes, protocol⟩]⟩ := by
  cases hipv4 : isIpv4 a with
  | true => simp [readInfo, answer, mapped_lastFour hipv4]
  | false => simp [readInfo, answer]

theorem foldl_readInfo {infos : List AddrInfo}
    (h : ∀ info ∈ infos, ∃ port protocol, info = answer (isIpv4 a) a.address port protocol)
    (found : List Addr) (hfound : ∀ r ∈ found, IsFound a r) :
    ∃ more, infos.foldl (fun o info => o.append (readInfo false info)) (⟨[], found⟩ : Outcome) =
        ⟨[], more⟩ ∧
      more.length = found.length + infos.length ∧ ∀ r ∈ more, IsFound a r := by
  induction infos generalizing found with
  | nil => exact ⟨found, rfl, rfl, hfound⟩
  | cons info infos ih =>
    obtain ⟨⟨port, protocol, rfl⟩, hinfos⟩ := List.forall_mem_cons.mp h
    obtain ⟨more, hfold, hlength, hmore⟩ := ih hinfos
      (found ++ [⟨a.address, port, allOnes, protocol⟩]) (by
        intro r hr
        rcases List.mem_append.mp hr with hr | hr
        · exact hfound r hr
        · obtain rfl := List.mem_singleton.mp hr
          exact ⟨rfl, rfl⟩)
    refine ⟨more, ?_, ?_, hmore⟩
    · rw [List.foldl_cons, readInfo_answer]
      exact hfold
    · rw [hlength]
      simp only [List.length_append, List.length_cons, List.length_nil]
      omega

theorem readInfos_answers {infos : List AddrInfo} (hne : infos ≠ [])
    (h : ∀ info ∈ infos, ∃ port protocol, info = answer (isIpv4 a) a.address port protocol) :
    ∃ found, readInfos infos = ⟨[], found⟩ ∧ found.length = infos.length ∧
      ∀ r ∈ found, IsFound a r := by
  obtain ⟨info, rest, rfl⟩ := List.exists_cons_of_ne_nil hne
  obtain ⟨⟨port, protocol, rfl⟩, hrest⟩ := List.forall_mem_cons.mp h
  obtain ⟨more, hfold, hlength, hmore⟩ := foldl_readInfo hrest
    [⟨a.address, port, allOnes, protocol⟩] (by
      intro r hr
      obtain rfl := List.mem_singleton.mp hr
      exact ⟨rfl, rfl⟩)
  refine ⟨more, ?_, ?_, hmore⟩
  · rw [readInfos, readInfo_answer]
    exact hfold
  · rw [hlength, List.length_singleton, List.length_cons]
    omega

theorem parseAddress_host (getaddrinfo : GetAddrInfo) (p : Parser) (a : Addr) (mask : QString) :
    ∃ fallback,
    parseAddress getaddrinfo p (hostPart (isIpv4 a) a.address) mask =
      parseAddressPort getaddrinfo p (hostText (isIpv4 a) a.address) (defaultPortText p)
        fallback := by
  cases isIpv4 a with
  | true =>
    have hhost : hostPart true a.address = hostText true a.address ++ [] := by
      rw [List.append_nil]
      rfl
    have hcolon := colon_notMem_hostText4 a.address
    refine ⟨ascii "0.0.0.0", ?_⟩
    rw [hhost, parseAddress_ipv4 (by simp) mask (by simp), List.append_nil, parseAddress4]
    by_cases hallowed : portAllowed p = true
    · simp only [if_pos hallowed, before_of_notMem hcolon, after_of_notMem hcolon,
        if_neg (hostText_ne_nil true a.address), if_true]
    · rw [if_neg hallowed, if_neg hcolon, if_neg (hostText_ne_nil true a.address)]
  | false =>
    have hhost : hostPart false a.address =
        openBracket :: hostText false a.address ++ closeBracket :: [] := rfl
    refine ⟨ascii "::", ?_⟩
    rw [hhost, parseAddress_ipv6 mask _ (by simp), if_neg (by simp)]

def lookUp (getaddrinfo : GetAddrInfo) (p : Parser) (a : Addr) : Except QString (List AddrInfo) :=
  getaddrinfo (hostText (isIpv4 a) a.address) (defaultPortText p) ⟨false, hintProtocol p.protocol⟩

theorem parseAddress_found (hresolves : Resolves getaddrinfo (isIpv4 a) a.address)
    (hport : p.flags .requiredPort = true → p.defaultPort ≠ none) (mask : QString) :
    ∃ infos found, lookUp getaddrinfo p a = .ok infos ∧
      parseAddress getaddrinfo p (hostPart (isIpv4 a) a.address) mask = ⟨[], found⟩ ∧
      infos ≠ [] ∧ (hintProtocol p.protocol ≠ none → infos.length = 1) ∧
      found.length = infos.length ∧ ∀ r ∈ found, IsFound a r := by
  obtain ⟨fallback, hparse⟩ := parseAddress_host getaddrinfo p a mask
  have hservice : defaultPortText p = [] ∨ ∃ port, defaultPortText p = portText port := by
    cases hdefault : p.defaultPort with
    | none => exact Or.inl (by rw [defaultPortText, hdefault]; rfl)
    | some port => exact Or.inr ⟨port, by rw [defaultPortText, hdefault]; rfl⟩
  have hcStr : cStr (defaultPortText p) = defaultPortText p := by
    rcases hservice with hempty | ⟨port, htext⟩
    · rw [hempty]
      rfl
    · rw [htext]
      exact cStr_of_notMem (zero_notMem_portText port)
  have hrequired : ¬ (defaultPortText p = [] ∧ p.flags .requiredPort = true) := by
    rintro ⟨hempty, hrequired⟩
    obtain ⟨port, hdefault⟩ := Option.ne_none_iff_exists'.mp (hport hrequired)
    rw [defaultPortText, hdefault] at hempty
    exact decimal_ne_nil _ hempty
  have hhost := hostText_ne_nil (isIpv4 a) a.address
  obtain ⟨infos, hanswers, hne, hall, hone⟩ :=
    hresolves (defaultPortText p) ⟨false, hintProtocol p.protocol⟩ hservice
  obtain ⟨found, hread, hlength, hfound⟩ := readInfos_answers hne hall
  refine ⟨infos, found, hanswers, ?_, hne, hone, hlength, hfound⟩
  rw [hparse, parseAddressPort, if_neg hrequired, if_neg (fun hand => hhost hand.1)]
  simp only [if_neg hhost]
  rw [cStr_hostText, hcStr, hanswers]
  exact hread

def addMask (f : Addr → Except QString Addr) (o : Outcome) (a : Addr) : Outcome :=
  match f a with
  | .error message => o.append (.error message)
  | .ok a => o.append ⟨[], [a]⟩

theorem parseMasks_eq {mask : QString} (hmask : mask ≠ []) (found : List Addr) :
    parseMasks getaddrinfo p mask ⟨[], found⟩ =
      if (found.foldl (addMask (parseMask getaddrinfo mask)) .empty).errors = [] then
        found.foldl (addMask (parseMask getaddrinfo mask)) .empty
      else ⟨(found.foldl (addMask (parseMask getaddrinfo mask)) .empty).errors, []⟩ := by
  rw [parseMasks]
  simp only [if_neg hmask]
  rfl

theorem foldl_addMask_ok {f : Addr → Except QString Addr} {g : Addr → Addr} {found : List Addr}
    (h : ∀ r ∈ found, f r = .ok (g r)) (front : List Addr) :
    found.foldl (addMask f) ⟨[], front⟩ = ⟨[], front ++ found.map g⟩ := by
  induction found generalizing front with
  | nil => simp
  | cons r found ih =>
    obtain ⟨hr, hfound⟩ := List.forall_mem_cons.mp h
    have hrest := ih hfound (front ++ [g r])
    rw [List.append_assoc] at hrest
    rw [List.foldl_cons, addMask, hr]
    exact hrest

theorem foldl_addMask_error {f : Addr → Except QString Addr} {found : List Addr}
    (h : ∀ r ∈ found, ∃ message, f r = .error message) (front : List QString) :
    ∃ errors, found.foldl (addMask f) ⟨front, []⟩ = ⟨errors, []⟩ ∧
      errors.length = front.length + found.length := by
  induction found generalizing front with
  | nil => exact ⟨front, rfl, rfl⟩
  | cons r found ih =>
    obtain ⟨⟨message, hr⟩, hfound⟩ := List.forall_mem_cons.mp h
    obtain ⟨errors, hfold, hlength⟩ := ih hfound (front ++ [message])
    refine ⟨errors, ?_, ?_⟩
    · rw [List.foldl_cons, addMask, hr]
      exact hfold
    · rw [hlength]
      simp only [List.length_append, List.length_cons, List.length_nil]
      omega

def prefixText (a : Addr) (n : ℕ) : QString :=
  hostPart (isIpv4 a) a.address ++ slash :: decimal n

theorem parse_prefixText (hallowed : p.flags .mask = true) :
    parse getaddrinfo p (prefixText a n) = Outcome.append .empty
      (parseMasks getaddrinfo p (decimal n)
        (parseAddress getaddrinfo p (hostPart (isIpv4 a) a.address) (decimal n))) := by
  have hslash := (slash_notMem_front (a := a) a.address 0).1
  have hseparators : ∀ c, c = comma ∨ c = space → c ∉ prefixText a n := by
    intro c hc
    have hhost := notMem_hostPart hc (isIpv4 a) a.address
    have hdigits : c ∉ decimal n := fun hmem =>
      absurd (isDigit_of_mem_decimal _ _ hmem) (by rcases hc with rfl | rfl <;> decide)
    rw [prefixText, List.mem_append, List.mem_cons, not_or, not_or]
    exact ⟨hhost, by rcases hc with rfl | rfl <;> decide, hdigits⟩
  rw [parse_single (by simp [prefixText]) hseparators, parseCidr, if_pos hallowed, prefixText,
    before_append hslash, after_append hslash]

/-- An address with its first `n` bits as what it stands for. -/
structure IsPrefix (a : Addr) (n : ℕ) (r : Addr) : Prop where
  address : r.address = a.address
  family : ∀ ip, isIpv4 ip = isIpv4 a → (addrMatch r ip = true ↔
    (familyBits (isIpv4 a) a.address).take n = (familyBits (isIpv4 a) ip.address).take n)
  ipv6 : isIpv4 a = true → ∀ ip, isIpv4 ip = false → addrMatch r ip = false
  applied : familyBits (isIpv4 a) (applyMask r).address =
    (familyBits (isIpv4 a) a.address).take n ++
      List.replicate (familySize (isIpv4 a) - n) false
  applied_ipv4 : isIpv4 a = true → isIpv4 (applyMask r) = true

theorem IsFound.isPrefix {r : Addr} (h : IsFound a r) (hn : n ≤ familySize (isIpv4 a)) :
    IsPrefix a n { r with mask := maskBits (familySize (isIpv4 r) - n) } := by
  have hfamily : isIpv4 r = isIpv4 a := by rw [isIpv4, isIpv4, h.1]
  have hmasked : Masked { r with mask := maskBits (familySize (isIpv4 r) - n) } n :=
    ⟨by rw [← hfamily] at hn; exact hn, rfl⟩
  have hipv4 : isIpv4 { r with mask := maskBits (familySize (isIpv4 r) - n) } = isIpv4 a := hfamily
  have happlied := hmasked.bits_applyMask
  rw [hipv4] at happlied
  refine ⟨h.1, fun ip hip => ?_, fun ha ip hip => ?_, ?_, happlied.1⟩
  · have hiff := hmasked.addrMatch_iff_prefix (hip.trans hipv4.symm)
    rw [hipv4] at hiff
    rw [hiff, ← h.1]
  · exact hmasked.addrMatch_ipv6 (hipv4.trans ha) hip
  · rw [happlied.2, ← h.1]

/-- A mask of bits that the family has is given to each address that is found, and any other one
is an error for each of them. -/
theorem parse_prefix (hresolves : Resolves getaddrinfo (isIpv4 a) a.address)
    (hallowed : p.flags .mask = true)
    (hport : p.flags .requiredPort = true → p.defaultPort ≠ none) :
    ∃ infos, lookUp getaddrinfo p a = .ok infos ∧ infos ≠ [] ∧
      (hintProtocol p.protocol ≠ none → infos.length = 1) ∧
      (n ≤ familySize (isIpv4 a) → (parse getaddrinfo p (prefixText a n)).errors = [] ∧
        (parse getaddrinfo p (prefixText a n)).ranges.length = infos.length ∧
        ∀ r ∈ (parse getaddrinfo p (prefixText a n)).ranges, IsPrefix a n r) ∧
      (familySize (isIpv4 a) < n → (parse getaddrinfo p (prefixText a n)).ranges = [] ∧
        (parse getaddrinfo p (prefixText a n)).errors.length = infos.length) := by
  obtain ⟨infos, found, hlookUp, hparse, hne, hone, hlength, hfound⟩ :=
    parseAddress_found hresolves hport (decimal n)
  have hfamily : ∀ r ∈ found, isIpv4 r = isIpv4 a := fun r hr => by
    rw [isIpv4, isIpv4, (hfound r hr).1]
  refine ⟨infos, hlookUp, hne, hone, fun hn => ?_, fun hn => ?_⟩
  · have hok : ∀ r ∈ found, parseMask getaddrinfo (decimal n) r =
        .ok { r with mask := maskBits (familySize (isIpv4 r) - n) } := fun r hr =>
      parseMask_decimal_le (by rw [hfamily r hr]; exact hn)
    have hmasks : parseMasks getaddrinfo p (decimal n) ⟨[], found⟩ =
        ⟨[], found.map fun r => { r with mask := maskBits (familySize (isIpv4 r) - n) }⟩ := by
      rw [parseMasks_eq (decimal_ne_nil n), Outcome.empty, foldl_addMask_ok hok]
      rfl
    rw [parse_prefixText hallowed, hparse, hmasks]
    refine ⟨rfl, ?_, fun r hr => ?_⟩
    · simp [Outcome.append, Outcome.empty, hlength]
    · obtain ⟨s, hs, rfl⟩ := List.mem_map.mp hr
      exact (hfound s hs).isPrefix hn
  · have hfail : ∀ r ∈ found, ∃ message, parseMask getaddrinfo (decimal n) r = .error message :=
      fun r hr => parseMask_decimal_lt (by rw [hfamily r hr]; exact hn)
    obtain ⟨errors, hfold, herrors⟩ := foldl_addMask_error hfail []
    have hpos := List.length_pos_iff.mpr hne
    have herrorsNe : errors ≠ [] := by
      rw [← List.length_pos_iff, herrors, hlength]
      omega
    rw [parse_prefixText hallowed, hparse, parseMasks_eq (decimal_ne_nil n), Outcome.empty, hfold,
      if_neg herrorsNe]
    refine ⟨rfl, ?_⟩
    simp [Outcome.append, herrors, hlength]

end Reading

/-- `getaddrinfo()` for a few numeric hosts, with each kind of socket where no protocol is asked
for. -/
def resolveTypes (hosts : List (Bool × Vector UInt8 16)) : GetAddrInfo := fun host service hints =>
  match hosts.find? (fun h => hostText h.1 h.2 = host) with
  | some h => .ok ((hints.protocol.elim [.tcp, .udp, .ip] fun protocol => [protocol]).map
      (answer h.1 h.2 (UInt16.ofNat (readDigits service))))
  | none => .error (ascii "-2 -- Name or service not known (errno: 0 -- Success).")

theorem resolves_resolveTypes {hosts : List (Bool × Vector UInt8 16)} {ipv4 : Bool}
    {ip : Vector UInt8 16}
    (h : hosts.find? (fun h => hostText h.1 h.2 = hostText ipv4 ip) = some (ipv4, ip)) :
    Resolves (resolveTypes hosts) ipv4 ip := by
  intro service hints _
  rw [resolveTypes, h]
  refine ⟨_, rfl, ?_, fun info hinfo => ?_, fun hprotocol => ?_⟩
  · cases hints.protocol <;> simp
  · obtain ⟨protocol, _, rfl⟩ := List.mem_map.mp hinfo
    exact ⟨_, protocol, rfl⟩
  · obtain ⟨protocol, hsome⟩ := Option.ne_none_iff_exists'.mp hprotocol
    rw [hsome]
    rfl

def maskParser : Parser where
  flags := fun flag => flag = .address ∨ flag = .port ∨ flag = .mask
  defaultAddress4 := []
  defaultAddress6 := []
  defaultMask4 := []
  defaultMask6 := []
  protocol := none
  defaultPort := none

theorem resolves_private : Resolves (resolveTypes privateHosts) (isIpv4 privateAddr)
    privateAddr.address := resolves_resolveTypes (by decide)

theorem parse_prefix_private : ∃ infos,
    lookUp (resolveTypes privateHosts) maskParser privateAddr = .ok infos ∧ infos ≠ [] ∧
      (hintProtocol maskParser.protocol ≠ none → infos.length = 1) ∧
      (20 ≤ familySize (isIpv4 privateAddr) →
        (parse (resolveTypes privateHosts) maskParser (prefixText privateAddr 20)).errors = [] ∧
        (parse (resolveTypes privateHosts) maskParser (prefixText privateAddr 20)).ranges.length =
          infos.length ∧
        ∀ r ∈ (parse (resolveTypes privateHosts) maskParser (prefixText privateAddr 20)).ranges,
          IsPrefix privateAddr 20 r) ∧
      (familySize (isIpv4 privateAddr) < 20 →
        (parse (resolveTypes privateHosts) maskParser (prefixText privateAddr 20)).ranges = [] ∧
        (parse (resolveTypes privateHosts) maskParser (prefixText privateAddr 20)).errors.length =
          infos.length) :=
  parse_prefix resolves_private rfl (by decide)

/-- Without a protocol, a mask that is too large is an error for each kind of socket. -/
theorem three_errors : ¬ ∀ (getaddrinfo : GetAddrInfo) (p : Parser) (a : Addr) (n : ℕ),
    Resolves getaddrinfo (isIpv4 a) a.address → p.flags .mask = true →
    familySize (isIpv4 a) < n → (parse getaddrinfo p (prefixText a n)).ranges = [] ∧
      (parse getaddrinfo p (prefixText a n)).errors.length = 1 := by
  intro h
  have hone := (h (resolveTypes privateHosts) maskParser privateAddr 33 resolves_private rfl
    (by decide)).2
  have hthree : (parse (resolveTypes privateHosts) maskParser
      (prefixText privateAddr 33)).errors.length = 3 := by decide
  omega

end SnapCpp.AddrMask
