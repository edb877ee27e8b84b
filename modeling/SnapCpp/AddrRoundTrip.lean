import SnapCpp.AddrParser
import SnapCpp.Pieces

/-!
The texts of addresses are read back by the parser: the port is behind the first colon that is
not between brackets, and the mask is behind the first slash. Brackets, commas, slashes and spaces
are in no text of an address, and the texts of IPv4 addresses have no colon.
-/
namespace SnapCpp.AddrRoundTrip

open QString QNumber AddrParser
open SnapAddr (Address dot colon)

section Cutting

variable {c : UInt16} {s : QString}

theorem before_append (h : c ∉ s) (t : QString) : before c (s ++ c :: t) = s := by
  rw [before, List.takeWhile_append_of_pos (by intro d hd; simp; rintro rfl; exact h hd)]
  simp

theorem after_append (h : c ∉ s) (t : QString) : after c (s ++ c :: t) = t := by
  rw [after, List.dropWhile_append_of_pos (by intro d hd; simp; rintro rfl; exact h hd)]
  simp

theorem before_of_notMem (h : c ∉ s) : before c s = s :=
  List.takeWhile_eq_self_iff.mpr (by intro d hd; simp; rintro rfl; exact h hd)

theorem after_of_notMem (h : c ∉ s) : after c s = [] := by
  rw [after, List.dropWhile_eq_nil_iff.mpr (by intro d hd; simp; rintro rfl; exact h hd)]
  rfl

theorem cStr_of_notMem (h : 0 ∉ s) : cStr s = s := before_of_notMem h

end Cutting

def isHostChar (c : UInt16) : Bool :=
  isDigit c || (97 ≤ c && c ≤ 102) || c == colon || c == dot

variable {c : UInt16}

theorem hostChar_decimal {n : ℕ} (h : c ∈ decimal n) : isHostChar c = true := by
  simp [isHostChar, isDigit_of_mem_decimal n c h]

theorem hostChar_hexText {n : ℕ} (h : c ∈ Address.hexText n) :
    isHostChar c = true := by
  obtain ⟨d, hd, rfl⟩ := List.mem_map.mp h
  obtain ⟨k, hk, rfl⟩ := SnapAddr.mem_toDigits_sixteen hd
  have hall :
      (List.range 16).all (fun k => isHostChar (Nat.digitChar k).toNat.toUInt16) = true := by
    decide
  exact List.all_eq_true.mp hall k (List.mem_range.mpr hk)

theorem hostChar_dotted {g h : UInt16} (hc : c ∈ Address.dotted g h) : isHostChar c = true := by
  rcases Pieces.mem_intercalate hc with ⟨w, hw, hc⟩ | hc
  · obtain ⟨n, _, rfl⟩ := List.mem_map.mp hw
    exact hostChar_decimal hc
  · obtain rfl := List.mem_singleton.mp hc
    decide

theorem hostChar_joinGroups {l : List UInt16} (hc : c ∈ Address.joinGroups l) :
    isHostChar c = true := by
  rcases Pieces.mem_intercalate hc with ⟨w, hw, hc⟩ | hc
  · obtain ⟨g, _, rfl⟩ := List.mem_map.mp hw
    exact hostChar_hexText hc
  · obtain rfl := List.mem_singleton.mp hc
    decide

theorem hostChar_inetNtop6 (ip : Vector UInt8 16) : ∀ c ∈ inetNtop6 ip, isHostChar c = true := by
  intro c hc
  have hcolon : isHostChar colon = true := by decide
  rw [inetNtop6, Address.inetNtop6] at hc
  simp only at hc
  split_ifs at hc
  · exact hostChar_joinGroups hc
  all_goals
    simp only [List.mem_append, List.mem_cons] at hc
    rcases hc with hc | rfl | rfl | hc
    · exact hostChar_joinGroups hc
    · exact hcolon
    · exact hcolon
  · exact hostChar_dotted hc
  · rcases hc with hc | rfl | hc
    · exact hostChar_hexText hc
    · exact hcolon
    · exact hostChar_dotted hc
  · exact hostChar_joinGroups hc

/-- An IPv4 address starts with a number below 256 and a period. -/
theorem inetNtop4_eq (ip : Vector UInt8 4) :
    ∃ rest, inetNtop4 ip = decimal (ip.get 0).toNat ++ dot :: rest := by
  obtain ⟨b₀, b₁, b₂, b₃, hip⟩ : ∃ b₀ b₁ b₂ b₃, ip.toList = [b₀, b₁, b₂, b₃] := by
    exact ⟨ip[0], ip[1], ip[2], ip[3], List.ext_getElem (by simp) (fun i h₁ h₂ => by
      have hi : i < 4 := h₂
      interval_cases i <;> simp)⟩
  have hfirst : ip.get 0 = b₀ := by
    have hget := congrArg (·[0]?) hip
    simpa [Vector.get_eq_getElem] using hget
  rw [inetNtop4, hip, hfirst]
  exact ⟨_, by simp [List.intercalate_cons_cons]; rfl⟩

theorem mem_inetNtop4 {ip : Vector UInt8 4} (hc : c ∈ inetNtop4 ip) :
    isDigit c = true ∨ c = dot := by
  rcases Pieces.mem_intercalate hc with ⟨w, hw, hc⟩ | hc
  · obtain ⟨b, _, rfl⟩ := List.mem_map.mp hw
    exact Or.inl (isDigit_of_mem_decimal _ c hc)
  · exact Or.inr (List.mem_singleton.mp hc)

def hostText (ipv4 : Bool) (ip : Vector UInt8 16) : QString :=
  if ipv4 then inetNtop4 (lastFour ip) else inetNtop6 ip

def answer (ipv4 : Bool) (ip : Vector UInt8 16) (port : UInt16) (protocol : Protocol) : AddrInfo :=
  if ipv4 then ⟨.inet (lastFour ip) port, sizeofInet, protocol⟩
  else ⟨.inet6 ip port, sizeofInet6, protocol⟩

/-- `getaddrinfo()` answers the text of an address with that one address, and with the port of a
numeric service, or zero without a service. -/
structure Numeric (getaddrinfo : GetAddrInfo) (ipv4 : Bool) (ip : Vector UInt8 16) : Prop where
  port : ∀ (port : UInt16) (numericHost : Bool) (protocol : Protocol), protocol ≠ .ip →
    getaddrinfo (hostText ipv4 ip) (portText port) ⟨numericHost, some protocol⟩ =
      .ok [answer ipv4 ip port protocol]
  noPort : ∀ (numericHost : Bool) (protocol : Protocol), protocol ≠ .ip →
    getaddrinfo (hostText ipv4 ip) [] ⟨numericHost, some protocol⟩ =
      .ok [answer ipv4 ip 0 protocol]

theorem hostChar_hostText (ipv4 : Bool) (ip : Vector UInt8 16) :
    ∀ c ∈ hostText ipv4 ip, isHostChar c = true := by
  intro c hc
  cases ipv4 with
  | true =>
    rcases mem_inetNtop4 hc with hdigit | rfl
    · simp [isHostChar, hdigit]
    · decide
  | false => exact hostChar_inetNtop6 ip c hc

theorem notMem_hostText (hc : isHostChar c = false) (ipv4 : Bool)
    (ip : Vector UInt8 16) : c ∉ hostText ipv4 ip := by
  intro hmem
  rw [hostChar_hostText ipv4 ip c hmem] at hc
  cases hc

theorem hostText_ne_nil (ipv4 : Bool) (ip : Vector UInt8 16) : hostText ipv4 ip ≠ [] := by
  cases ipv4 with
  | true =>
    obtain ⟨rest, htext⟩ := inetNtop4_eq (lastFour ip)
    show inetNtop4 (lastFour ip) ≠ []
    rw [htext]
    simp
  | false =>
    show inetNtop6 ip ≠ []
    exact SnapAddr.inetNtop6_ne_nil _

theorem colon_notMem_hostText4 (ip : Vector UInt8 16) : colon ∉ hostText true ip := by
  intro hmem
  rcases mem_inetNtop4 hmem with hdigit | hdot
  · revert hdigit
    decide
  · revert hdot
    decide

def hostPart (ipv4 : Bool) (ip : Vector UInt8 16) : QString :=
  bracketed (!ipv4) (hostText ipv4 ip)

theorem toIpv4or6String_eq {mode : StringIp} (hmode : hasBrackets mode = true) (a : Addr) :
    toIpv4or6String mode a = hostPart (isIpv4 a) a.address ++
      (if hasPort mode then colon :: portText a.port else []) ++
      (if hasMask mode then slash :: hostPart (isIpv4 a) a.mask else []) := by
  rw [toIpv4or6String]
  split_ifs with hipv4
  all_goals simp only [hipv4, hostPart, toIpv4String, toIpv6String, hmode]
  all_goals simp_all [bracketed, hostText]

section Reading

variable {getaddrinfo : GetAddrInfo} {p : Parser} {a : Addr} {protocol : Protocol} {mode : StringIp}

theorem mapped_lastFour (h : isIpv4 a = true) : mapped (lastFour a.address) = a.address := by
  have hfront : a.address.toList.take 12 = [0, 0, 0, 0, 0, 0, 0, 0, 0, 0, 255, 255] :=
    beq_iff_eq.mp h
  refine Vector.ext fun i hi => ?_
  by_cases hlt : i < 12
  · have hget : (a.address.toList.take 12)[i]? = some a.address[i] := by
      rw [List.getElem?_take_of_lt hlt]
      simp [hi]
    rw [hfront] at hget
    interval_cases i <;> simpa [mapped] using hget
  · interval_cases i <;> simp_all [mapped, lastFour]

theorem maskIpv4_lastFour {mask : Vector UInt8 16}
    (h : mask.toList.take 12 = List.replicate 12 255) : maskIpv4 (lastFour mask) = mask := by
  refine Vector.ext fun i hi => ?_
  by_cases hlt : i < 12
  · have hget : (mask.toList.take 12)[i]? = some mask[i] := by
      rw [List.getElem?_take_of_lt hlt]
      simp [hi]
    rw [h] at hget
    interval_cases i <;> simpa [maskIpv4] using hget
  · interval_cases i <;> simp_all [maskIpv4, lastFour]

theorem readInfos_answer (port : UInt16) :
    readInfos [answer (isIpv4 a) a.address port protocol] =
      ⟨[], [⟨a.address, port, allOnes, protocol⟩]⟩ := by
  cases hipv4 : isIpv4 a with
  | true => simp [readInfos, readInfo, answer, mapped_lastFour hipv4]
  | false => simp [readInfos, readInfo, answer]

theorem cStr_hostText (ipv4 : Bool) (ip : Vector UInt8 16) :
    cStr (hostText ipv4 ip) = hostText ipv4 ip :=
  cStr_of_notMem (notMem_hostText (by decide) ipv4 ip)

theorem zero_notMem_portText (port : UInt16) : 0 ∉ portText port := fun hmem =>
  absurd (isDigit_of_mem_decimal _ _ hmem) (by decide)

theorem hintProtocol_of_ne (h : protocol ≠ .ip) : hintProtocol (some protocol) = some protocol := by
  cases protocol
  · exact absurd rfl h
  · rfl
  · rfl

theorem parseAddressPort_numeric (haddress : Numeric getaddrinfo (isIpv4 a) a.address)
    (hprotocol : p.protocol = some protocol) (hip : protocol ≠ .ip) (fallback : QString) :
    (∀ port, parseAddressPort getaddrinfo p (hostText (isIpv4 a) a.address) (portText port)
        fallback = ⟨[], [⟨a.address, port, allOnes, protocol⟩]⟩) ∧
      (portAllowed p = false → parseAddressPort getaddrinfo p (hostText (isIpv4 a) a.address)
        (defaultPortText p) fallback =
          ⟨[], [⟨a.address, p.defaultPort.getD 0, allOnes, protocol⟩]⟩) := by
  have hhost : hostText (isIpv4 a) a.address ≠ [] := hostText_ne_nil _ _
  have hport : ∀ port, parseAddressPort getaddrinfo p (hostText (isIpv4 a) a.address)
      (portText port) fallback = ⟨[], [⟨a.address, port, allOnes, protocol⟩]⟩ := by
    intro port
    have hne : portText port ≠ [] := decimal_ne_nil _
    rw [parseAddressPort, if_neg (fun hand => hne hand.1), if_neg (fun hand => hhost hand.1)]
    simp only [if_neg hhost]
    rw [cStr_hostText, cStr_of_notMem (zero_notMem_portText port), hprotocol,
      hintProtocol_of_ne hip, haddress.port port false protocol hip]
    exact readInfos_answer port
  refine ⟨hport, fun hnone => ?_⟩
  cases hdefault : p.defaultPort with
  | some port =>
    rw [defaultPortText, hdefault]
    exact hport port
  | none =>
    have hrequired : p.flags .requiredPort = false := by
      rw [portAllowed, Bool.or_eq_false_iff] at hnone
      exact hnone.2
    rw [defaultPortText, hdefault, parseAddressPort, if_neg (by simp [hrequired]),
      if_neg (fun hand => hhost hand.1)]
    simp only [if_neg hhost, Option.elim_none]
    have hempty : cStr [] = [] := rfl
    rw [cStr_hostText, hempty, hprotocol, hintProtocol_of_ne hip,
      haddress.noPort false protocol hip]
    exact readInfos_answer 0

/-- An IPv4 address is told by its first character, and has no bracket. -/
theorem parseAddress_ipv4 {rest : QString} (hrest : closeBracket ∉ rest) (mask : QString)
    (hcolon : portAllowed p = false → colon ∉ rest) (ip : Vector UInt8 16) :
    parseAddress getaddrinfo p (hostText true ip ++ rest) mask =
      parseAddress4 getaddrinfo p (hostText true ip ++ rest) := by
  obtain ⟨c, w, hw⟩ := List.exists_cons_of_ne_nil (hostText_ne_nil true ip)
  have hc : c ∈ hostText true ip := by simp [hw]
  have hhead : (hostText true ip ++ rest).head? = some c := by rw [hw]; rfl
  have hneColon : c ≠ colon := by
    rintro rfl
    exact colon_notMem_hostText4 ip hc
  have hneBracket : c ≠ openBracket := by
    rintro rfl
    exact notMem_hostText (by decide) true ip hc
  have hclose : closeBracket ∉ hostText true ip ++ rest := by
    rw [List.mem_append, not_or]
    exact ⟨notMem_hostText (by decide) true ip, hrest⟩
  rw [parseAddress, if_neg, if_neg, if_neg]
  · rintro ⟨hallowed, hmem, -⟩
    rcases List.mem_append.mp hmem with hmem | hmem
    · exact colon_notMem_hostText4 ip hmem
    · exact hcolon (by simpa using hallowed) hmem
  · rintro (hopen | hmem)
    · rw [hhead] at hopen
      exact hneBracket (Option.some.inj hopen)
    · exact hclose hmem
  · rintro (hempty | hopen)
    · rw [hempty] at hhead
      cases hhead
    · rw [hhead] at hopen
      exact hneColon (Option.some.inj hopen)

theorem parseAddress_ipv6 {rest : QString} (mask : QString) (ip : Vector UInt8 16)
    (hcolon : portAllowed p = false → colon ∉ rest) :
    parseAddress getaddrinfo p (openBracket :: hostText false ip ++ closeBracket :: rest) mask =
      parseAddressPort getaddrinfo p (hostText false ip)
        (if colon ∈ rest then after colon rest else defaultPortText p) (ascii "::") := by
  have hclose : closeBracket ∉ openBracket :: hostText false ip := by
    rw [List.mem_cons, not_or]
    exact ⟨by decide, notMem_hostText (by decide) false ip⟩
  have hdrop : (openBracket :: hostText false ip ++ closeBracket :: rest).dropWhile
      (· ≠ closeBracket) = closeBracket :: rest := by
    rw [List.dropWhile_append_of_pos (by intro d hd; simp; rintro rfl; exact hclose hd)]
    simp
  have hmem : colon ∈ closeBracket :: rest ↔ colon ∈ rest := by
    rw [List.mem_cons]
    exact or_iff_right (by decide)
  have hafter : after colon (closeBracket :: rest) = after colon rest := by
    rw [after, List.dropWhile_cons_of_pos (by decide)]
    rfl
  have hhead : (openBracket :: hostText false ip ++ closeBracket :: rest).head? =
      some openBracket := rfl
  rw [parseAddress, if_neg, if_pos (Or.inl hhead), parseAddress6]
  · simp only [hhead, if_true, true_and]
    rw [if_neg (by simp), before_append hclose, hdrop]
    simp only [hmem, hafter]
    rw [if_neg (fun hand => hcolon (by simpa using hand.2) hand.1),
      if_neg (show (openBracket :: hostText false ip).tail ≠ [] from hostText_ne_nil false ip)]
    rfl
  · rintro (hempty | hopen)
    · cases hempty
    · rw [hhead] at hopen
      exact absurd (Option.some.inj hopen) (by decide)

theorem parseAddress_printed (haddress : Numeric getaddrinfo (isIpv4 a) a.address)
    (hprotocol : p.protocol = some protocol) (hip : protocol ≠ .ip) (mask : QString) :
    (portAllowed p = true → parseAddress getaddrinfo p
        (hostPart (isIpv4 a) a.address ++ colon :: portText a.port) mask =
          ⟨[], [⟨a.address, a.port, allOnes, protocol⟩]⟩) ∧
      (portAllowed p = false → parseAddress getaddrinfo p (hostPart (isIpv4 a) a.address) mask =
        ⟨[], [⟨a.address, p.defaultPort.getD 0, allOnes, protocol⟩]⟩) := by
  have hresolved := parseAddressPort_numeric haddress hprotocol hip
  have hcloseport : closeBracket ∉ colon :: portText a.port := by
    rw [List.mem_cons, not_or]
    exact ⟨by decide, fun hmem => absurd (isDigit_of_mem_decimal _ _ hmem) (by decide)⟩
  have hport : portText a.port ≠ [] := decimal_ne_nil _
  cases hipv4 : isIpv4 a with
  | true =>
    rw [hipv4] at hresolved
    refine ⟨fun hallowed => ?_, fun hnone => ?_⟩
    · have hhost : hostPart true a.address = hostText true a.address := rfl
      rw [hhost,
        parseAddress_ipv4 hcloseport mask (fun hnone => by rw [hallowed] at hnone; cases hnone),
        parseAddress4, if_pos hallowed]
      simp only [before_append (colon_notMem_hostText4 a.address),
        after_append (colon_notMem_hostText4 a.address), if_neg (hostText_ne_nil _ _),
        if_neg hport]
      exact (hresolved _).1 a.port
    · have hhost : hostPart true a.address = hostText true a.address ++ [] := by
        rw [List.append_nil]
        rfl
      rw [hhost, parseAddress_ipv4 (by simp) mask (by simp), List.append_nil, parseAddress4,
        if_neg (by simp [hnone]), if_neg (colon_notMem_hostText4 a.address),
        if_neg (hostText_ne_nil _ _)]
      exact (hresolved _).2 hnone
  | false =>
    rw [hipv4] at hresolved
    refine ⟨fun hallowed => ?_, fun hnone => ?_⟩
    · have hhost : hostPart false a.address ++ colon :: portText a.port =
          openBracket :: hostText false a.address ++ closeBracket :: colon :: portText a.port := by
        simp [hostPart, bracketed]
      rw [hhost, parseAddress_ipv6 mask _ (fun hnone => by rw [hallowed] at hnone; cases hnone),
        if_pos List.mem_cons_self]
      have hafter := after_append (c := colon) (s := []) (by simp) (portText a.port)
      rw [List.nil_append] at hafter
      rw [hafter]
      exact (hresolved _).1 a.port
    · have hhost : hostPart false a.address =
          openBracket :: hostText false a.address ++ closeBracket :: [] := rfl
      rw [hhost, parseAddress_ipv6 mask _ (by simp), if_neg (by simp)]
      exact (hresolved _).2 hnone

theorem le_foldl_digits (w : QString) (n : ℕ) :
    n ≤ w.foldl (fun n c => 10 * n + digitValue c) n := by
  induction w generalizing n with
  | nil => exact Nat.le_refl n
  | cons c w ih =>
    have htail := ih (10 * n + digitValue c)
    rw [List.foldl_cons]
    omega

theorem scanNumber_dot {w : QString} (hw : ∀ c ∈ w, isDigit c = true) (rest : QString) (n : ℕ)
    (h : w.foldl (fun n c => 10 * n + digitValue c) n ≤ 1000) :
    scanNumber n (w ++ dot :: rest) = .text := by
  induction w generalizing n with
  | nil => rfl
  | cons c w ih =>
    obtain ⟨hc, hw⟩ := List.forall_mem_cons.mp hw
    rw [List.foldl_cons] at h
    have hle := le_foldl_digits w (10 * n + digitValue c)
    rw [List.cons_append, scanNumber, if_pos hc, if_neg (by omega)]
    exact ih hw _ h

/-- The mask is read back. -/
theorem parseMask_printed (hmask : Numeric getaddrinfo (isIpv4 a) a.mask) (hip : protocol ≠ .ip)
    (hfront : isIpv4 a = true → a.mask.toList.take 12 = List.replicate 12 255) (port : UInt16) :
    parseMask getaddrinfo (hostPart (isIpv4 a) a.mask) ⟨a.address, port, allOnes, protocol⟩ =
      .ok ⟨a.address, port, a.mask, protocol⟩ := by
  have hipv4 : isIpv4 ⟨a.address, port, allOnes, protocol⟩ = isIpv4 a := rfl
  have hresolved := hmask.port port true protocol hip
  cases hfamily : isIpv4 a with
  | true =>
    rw [hfamily] at hresolved hipv4
    have hhost : hostPart true a.mask = hostText true a.mask := rfl
    have hscan : scanNumber 0 (hostText true a.mask) = .text := by
      obtain ⟨rest, htext⟩ := inetNtop4_eq (lastFour a.mask)
      have hlt := ((lastFour a.mask).get 0).toNat_lt
      have hvalue := readDigits_decimal ((lastFour a.mask).get 0).toNat
      show scanNumber 0 (inetNtop4 (lastFour a.mask)) = .text
      rw [htext]
      refine scanNumber_dot (fun c => isDigit_of_mem_decimal _ c) rest 0 ?_
      rw [readDigits] at hvalue
      omega
    have hbracket : (hostText true a.mask).head? ≠ some openBracket := fun hhead =>
      notMem_hostText (by decide) true a.mask (List.mem_of_mem_head? hhead)
    rw [hhost, parseMask, if_neg (hostText_ne_nil _ _), cStr_hostText, hscan]
    simp only
    rw [parseMaskAddress]
    simp only [hipv4, if_true, if_neg hbracket]
    rw [cStr_hostText, hintProtocol_of_ne hip, hresolved]
    simp [answer, maskIpv4_lastFour (hfront hfamily)]
  | false =>
    rw [hfamily] at hresolved hipv4
    have hhost : hostPart false a.mask =
        openBracket :: (hostText false a.mask ++ [closeBracket]) := rfl
    have hzero : 0 ∉ openBracket :: (hostText false a.mask ++ [closeBracket]) := by
      rw [List.mem_cons, List.mem_append, List.mem_singleton, not_or, not_or]
      exact ⟨by decide, notMem_hostText (by decide) false a.mask, by decide⟩
    have hscan : scanNumber 0 (openBracket :: (hostText false a.mask ++ [closeBracket])) = .text :=
      rfl
    have hlast : (openBracket :: (hostText false a.mask ++ [closeBracket])).getLast? =
        some closeBracket := by
      rw [← List.cons_append, List.getLast?_concat]
    rw [hhost, parseMask, if_neg (by simp), cStr_of_notMem hzero, hscan]
    simp only
    rw [parseMaskAddress]
    simp only [hipv4, List.head?_cons, List.tail_cons, List.dropLast_concat]
    rw [if_neg (by decide), if_neg (not_not.mpr rfl), if_neg (not_not.mpr hlast),
      if_neg (hostText_ne_nil _ _), cStr_hostText, hintProtocol_of_ne hip, hresolved]
    simp [answer]

theorem notMem_hostPart {c : UInt16} (hc : c = comma ∨ c = space) (ipv4 : Bool)
    (ip : Vector UInt8 16) : c ∉ hostPart ipv4 ip := by
  have hnot : c ∉ hostText ipv4 ip :=
    notMem_hostText (by rcases hc with rfl | rfl <;> decide) _ _
  rw [hostPart, bracketed]
  split_ifs
  · rw [List.mem_append, List.mem_cons, List.mem_singleton, not_or, not_or]
    refine ⟨⟨?_, hnot⟩, ?_⟩ <;> rcases hc with rfl | rfl <;> decide
  · exact hnot

/-- No separator of addresses is in the text of an address. -/
theorem notMem_printed (hmode : hasBrackets mode = true) {c : UInt16}
    (hc : c = comma ∨ c = space) : c ∉ toIpv4or6String mode a := by
  have hport : c ∉ portText a.port := fun hmem =>
    absurd (isDigit_of_mem_decimal _ _ hmem) (by rcases hc with rfl | rfl <;> decide)
  have hne : c ≠ colon ∧ c ≠ slash := by
    rcases hc with rfl | rfl <;> decide
  rw [toIpv4or6String_eq hmode]
  split_ifs <;> simp [notMem_hostPart hc, hport, hne]

theorem printed_ne_nil (hmode : hasBrackets mode = true) :
    toIpv4or6String mode a ≠ [] := by
  have hhost : hostPart (isIpv4 a) a.address ≠ [] := by
    rw [hostPart, bracketed]
    split_ifs
    · simp
    · exact hostText_ne_nil _ _
  rw [toIpv4or6String_eq hmode]
  simp [hhost]

/-- A text without separators is one part, whatever separates addresses. -/
theorem parse_single {text : QString} (hne : text ≠ [])
    (h : ∀ c, c = comma ∨ c = space → c ∉ text) : parse getaddrinfo p text =
      Outcome.append .empty (parseCidr getaddrinfo p text) := by
  have hparts : ∀ isSeparator : UInt16 → Bool,
      (∀ c, isSeparator c = true → c = comma ∨ c = space) →
      parseParts getaddrinfo p isSeparator text =
        Outcome.append .empty (parseCidr getaddrinfo p text) := by
    intro isSeparator hseparator
    have hnone : ∀ c ∈ text, isSeparator c = false := by
      intro c hc
      rw [Bool.eq_false_iff]
      exact fun htrue => h c (hseparator c htrue) hc
    rw [parseParts, List.splitOnP_eq_singleton hnone]
    simp [hne]
  rw [parse]
  split_ifs
  · exact hparts _ (fun c hc => by simpa using hc)
  · exact hparts _ (fun c hc => Or.inl (by simpa using hc))
  · exact hparts _ (fun c hc => Or.inr (by simpa using hc))
  · rfl

theorem parse_printed (hmode : hasBrackets mode = true) :
    parse getaddrinfo p (toIpv4or6String mode a) =
      Outcome.append .empty (parseCidr getaddrinfo p (toIpv4or6String mode a)) :=
  parse_single (printed_ne_nil hmode) (fun _ hc => notMem_printed hmode hc)

theorem slash_notMem_front (ip : Vector UInt8 16) (port : UInt16) :
    slash ∉ hostPart (isIpv4 a) ip ∧ slash ∉ hostPart (isIpv4 a) ip ++ colon :: portText port := by
  have hhost : slash ∉ hostPart (isIpv4 a) ip := by
    have hnot : slash ∉ hostText (isIpv4 a) ip := notMem_hostText (by decide) _ _
    rw [hostPart, bracketed]
    split_ifs
    · rw [List.mem_append, List.mem_cons, List.mem_singleton, not_or, not_or]
      exact ⟨⟨by decide, hnot⟩, by decide⟩
    · exact hnot
  refine ⟨hhost, ?_⟩
  rw [List.mem_append, List.mem_cons, not_or, not_or]
  exact ⟨hhost, by decide, fun hmem => absurd (isDigit_of_mem_decimal _ _ hmem) (by decide)⟩

theorem parseCidr_printed (hmask : Numeric getaddrinfo (isIpv4 a) a.mask) (hip : protocol ≠ .ip)
    (hfront : isIpv4 a = true → a.mask.toList.take 12 = List.replicate 12 255)
    (hallowed : p.flags .mask = true) {front : QString} {port : UInt16} (hslash : slash ∉ front)
    (hread : parseAddress getaddrinfo p front (hostPart (isIpv4 a) a.mask) =
      ⟨[], [⟨a.address, port, allOnes, protocol⟩]⟩) :
    parseCidr getaddrinfo p (front ++ slash :: hostPart (isIpv4 a) a.mask) =
      ⟨[], [⟨a.address, port, a.mask, protocol⟩]⟩ := by
  have hne : hostPart (isIpv4 a) a.mask ≠ [] := by
    rw [hostPart, bracketed]
    split_ifs
    · simp
    · exact hostText_ne_nil _ _
  rw [parseCidr, if_pos hallowed, before_append hslash, after_append hslash, hread, parseMasks]
  simp only [List.foldl_cons, List.foldl_nil, if_neg hne, parseMask_printed hmask hip hfront port]
  simp [Outcome.append]

theorem parse_all (haddress : Numeric getaddrinfo (isIpv4 a) a.address)
    (hmask : Numeric getaddrinfo (isIpv4 a) a.mask) (hprotocol : p.protocol = some protocol)
    (hip : protocol ≠ .ip)
    (hfront : isIpv4 a = true → a.mask.toList.take 12 = List.replicate 12 255)
    (hport : portAllowed p = true) (hallowed : p.flags .mask = true) :
    parse getaddrinfo p (toIpv4or6String .all a) =
      ⟨[], [⟨a.address, a.port, a.mask, protocol⟩]⟩ := by
  have hread := parseAddress_printed haddress hprotocol hip (hostPart (isIpv4 a) a.mask)
  have htext : toIpv4or6String .all a = (hostPart (isIpv4 a) a.address ++
      colon :: portText a.port) ++ slash :: hostPart (isIpv4 a) a.mask :=
    toIpv4or6String_eq rfl a
  rw [parse_printed rfl, htext, parseCidr_printed hmask hip hfront hallowed
    (slash_notMem_front a.address a.port).2 (hread.1 hport)]
  rfl

theorem parse_port (haddress : Numeric getaddrinfo (isIpv4 a) a.address)
    (hprotocol : p.protocol = some protocol) (hip : protocol ≠ .ip)
    (hport : portAllowed p = true) (hallowed : p.flags .mask = false) :
    parse getaddrinfo p (toIpv4or6String .port a) =
      ⟨[], [⟨a.address, a.port, allOnes, protocol⟩]⟩ := by
  have htext : toIpv4or6String .port a = hostPart (isIpv4 a) a.address ++
      colon :: portText a.port := by
    rw [toIpv4or6String_eq rfl, if_pos (by decide), if_neg (by decide), List.append_nil]
  rw [parse_printed rfl, htext, parseCidr, if_neg (by simp [hallowed]),
    (parseAddress_printed haddress hprotocol hip []).1 hport]
  rfl

theorem parse_bracketsMask (haddress : Numeric getaddrinfo (isIpv4 a) a.address)
    (hmask : Numeric getaddrinfo (isIpv4 a) a.mask) (hprotocol : p.protocol = some protocol)
    (hip : protocol ≠ .ip)
    (hfront : isIpv4 a = true → a.mask.toList.take 12 = List.replicate 12 255)
    (hport : portAllowed p = false) (hallowed : p.flags .mask = true) :
    parse getaddrinfo p (toIpv4or6String .bracketsMask a) =
      ⟨[], [⟨a.address, p.defaultPort.getD 0, a.mask, protocol⟩]⟩ := by
  have hread := parseAddress_printed haddress hprotocol hip (hostPart (isIpv4 a) a.mask)
  have htext : toIpv4or6String .bracketsMask a = hostPart (isIpv4 a) a.address ++
      slash :: hostPart (isIpv4 a) a.mask := by
    rw [toIpv4or6String_eq rfl, if_neg (by decide), if_pos (by decide), List.append_nil]
  rw [parse_printed rfl, htext, parseCidr_printed hmask hip hfront hallowed
    (slash_notMem_front a.address a.port).1 (hread.2 hport)]
  rfl

/-- An address is read back with what its text has: with the port and the mask, with the port
where masks are not allowed, or with the mask where ports are not. -/
theorem parse_toIpv4or6String (haddress : Numeric getaddrinfo (isIpv4 a) a.address)
    (hmask : Numeric getaddrinfo (isIpv4 a) a.mask) (hprotocol : p.protocol = some protocol)
    (hip : protocol ≠ .ip)
    (hfront : isIpv4 a = true → a.mask.toList.take 12 = List.replicate 12 255) :
    (portAllowed p = true → p.flags .mask = true →
      parse getaddrinfo p (toIpv4or6String .all a) =
        ⟨[], [⟨a.address, a.port, a.mask, protocol⟩]⟩) ∧
    (portAllowed p = true → p.flags .mask = false →
      parse getaddrinfo p (toIpv4or6String .port a) =
        ⟨[], [⟨a.address, a.port, allOnes, protocol⟩]⟩) ∧
    (portAllowed p = false → p.flags .mask = true →
      parse getaddrinfo p (toIpv4or6String .bracketsMask a) =
        ⟨[], [⟨a.address, p.defaultPort.getD 0, a.mask, protocol⟩]⟩) :=
  ⟨parse_all haddress hmask hprotocol hip hfront, parse_port haddress hprotocol hip,
    parse_bracketsMask haddress hmask hprotocol hip hfront⟩

end Reading

/-- `getaddrinfo()` for a few numeric hosts. -/
def resolveHosts (hosts : List (Bool × Vector UInt8 16)) : GetAddrInfo := fun host service hints =>
  match hosts.find? (fun h => hostText h.1 h.2 = host), hints.protocol with
  | some h, some protocol => .ok [answer h.1 h.2 (UInt16.ofNat (readDigits service)) protocol]
  | _, _ => .error (ascii "-2 -- Name or service not known (errno: 0 -- Success).")

theorem numeric_resolveHosts {hosts : List (Bool × Vector UInt8 16)} {ipv4 : Bool}
    {ip : Vector UInt8 16}
    (h : hosts.find? (fun h => hostText h.1 h.2 = hostText ipv4 ip) = some (ipv4, ip)) :
    Numeric (resolveHosts hosts) ipv4 ip := by
  constructor
  · intro port numericHost protocol _
    rw [resolveHosts, h]
    simp only
    rw [portText, readDigits_decimal, UInt16.ofNat_toNat]
  · intro numericHost protocol _
    rw [resolveHosts, h]
    rfl

def privateAddr : Addr where
  address := mapped #v[192, 168, 1, 10]
  port := 80
  mask := maskIpv4 #v[255, 255, 255, 0]
  protocol := .tcp

def privateHosts : List (Bool × Vector UInt8 16) :=
  [(true, privateAddr.address), (true, privateAddr.mask)]

theorem numeric_private : isIpv4 privateAddr = true ∧
    Numeric (resolveHosts privateHosts) (isIpv4 privateAddr) privateAddr.address ∧
    Numeric (resolveHosts privateHosts) (isIpv4 privateAddr) privateAddr.mask :=
  ⟨by decide, numeric_resolveHosts (by decide), numeric_resolveHosts (by decide)⟩

def tcpParser (flags : Flag → Bool) : Parser where
  flags := flags
  defaultAddress4 := []
  defaultAddress6 := []
  defaultMask4 := []
  defaultMask6 := []
  protocol := some .tcp
  defaultPort := none

theorem parse_private : parse (resolveHosts privateHosts)
    (tcpParser fun flag => flag = .address ∨ flag = .port ∨ flag = .mask)
    (toIpv4or6String .all privateAddr) =
      ⟨[], [⟨privateAddr.address, 80, privateAddr.mask, .tcp⟩]⟩ :=
  (parse_toIpv4or6String numeric_private.2.1 numeric_private.2.2 rfl (by decide)
    (fun _ => by decide)).1 rfl rfl

/-- A mask that is not printed is not read back. -/
theorem port_without_mask : ¬ ∀ (getaddrinfo : GetAddrInfo) (p : Parser) (a : Addr)
    (protocol : Protocol), Numeric getaddrinfo (isIpv4 a) a.address →
    Numeric getaddrinfo (isIpv4 a) a.mask → p.protocol = some protocol → protocol ≠ .ip →
    (isIpv4 a = true → a.mask.toList.take 12 = List.replicate 12 255) → portAllowed p = true →
    p.flags .mask = false →
    ∃ r, parse getaddrinfo p (toIpv4or6String .port a) = ⟨[], [r]⟩ ∧ r.address = a.address ∧
      r.port = a.port ∧ r.mask = a.mask := by
  intro h
  obtain ⟨r, hread, _, _, hmask⟩ := h (resolveHosts privateHosts)
    (tcpParser fun flag => flag = .address ∨ flag = .port) privateAddr .tcp numeric_private.2.1
    numeric_private.2.2 rfl (by decide) (fun _ => by decide) rfl rfl
  have hactual := parse_port (p := tcpParser fun flag => flag = .address ∨ flag = .port)
    numeric_private.2.1 rfl (by decide : Protocol.tcp ≠ .ip) rfl rfl
  rw [hactual] at hread
  have hranges := congrArg Outcome.ranges hread
  obtain rfl := List.singleton_inj.mp hranges
  revert hmask
  decide

end SnapCpp.AddrRoundTrip
