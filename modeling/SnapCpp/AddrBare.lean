import SnapCpp.AddrRoundTrip

/-!
IPv6 addresses without brackets, where ports are not allowed. The address is only cut out of a
text that starts with a bracket, and the search for a port starts at the front of any other one:
the first colon of the address is taken for that of a port.
-/
namespace SnapCpp.AddrBare

open QString QNumber AddrParser AddrRoundTrip
open SnapAddr (Address colon)

theorem colon_mem_joinGroups {l : List UInt16} (h : 2 ≤ l.length) :
    colon ∈ Address.joinGroups l := by
  match l with
  | g :: k :: rest =>
    rw [Address.joinGroups, List.map_cons, List.map_cons, List.intercalate_cons_cons]
    simp

theorem colon_mem_inetNtop6 (ip : Vector UInt8 16) : colon ∈ inetNtop6 ip := by
  rw [inetNtop6, Address.inetNtop6]
  simp only
  split_ifs
  · exact colon_mem_joinGroups (by simp)
  all_goals simp

def portNotAllowed (input : QString) : Outcome :=
  .error (ascii "Port not allowed (" ++ input ++ ascii ").")

variable {getaddrinfo : GetAddrInfo} {p : Parser} {text : QString}

theorem parseAddress_colon (hcolon : colon ∈ text) (hopen : text.head? ≠ some openBracket)
    (hport : portAllowed p = false) (mask : QString) :
    parseAddress getaddrinfo p text mask = portNotAllowed text := by
  have h4 : parseAddress4 getaddrinfo p text = portNotAllowed text := by
    rw [parseAddress4, if_neg (by simp [hport]), if_pos hcolon]
    rfl
  have h6 : parseAddress6 getaddrinfo p text = portNotAllowed text := by
    rw [parseAddress6]
    simp only [hopen, false_and, if_false]
    rw [if_pos ⟨hcolon, by simp [hport]⟩]
    rfl
  rw [parseAddress]
  split_ifs
  all_goals first | exact h4 | exact h6

/-- Nothing of such a text is kept. -/
theorem parse_colon (hcolon : colon ∈ text) (hopen : text.head? ≠ some openBracket)
    (hslash : slash ∉ text) (hseparators : ∀ c, c = comma ∨ c = space → c ∉ text)
    (hport : portAllowed p = false) : parse getaddrinfo p text = portNotAllowed text := by
  have hne : text ≠ [] := List.ne_nil_of_mem hcolon
  rw [parse_single hne hseparators, parseCidr]
  split_ifs
  · rw [before_of_notMem hslash, parseAddress_colon hcolon hopen hport, parseMasks]
    rfl
  · rw [parseAddress_colon hcolon hopen hport]
    rfl

/-- An IPv6 address without brackets is never read. -/
theorem parse_bare (a : Addr) (hport : p.flags .port = false)
    (hrequired : p.flags .requiredPort = false) :
    ¬ ((parse getaddrinfo p (toIpv6String .only a)).errors = [] ∧
      ∃ r, (parse getaddrinfo p (toIpv6String .only a)).ranges = [r] ∧
        r.address = a.address) := by
  have htext : toIpv6String .only a = hostText false a.address := by
    rw [toIpv6String, if_neg (by decide), if_neg (by decide), List.append_nil, List.append_nil]
    rfl
  have hopen : (hostText false a.address).head? ≠ some openBracket := fun hhead =>
    notMem_hostText (by decide) false a.address (List.mem_of_mem_head? hhead)
  have hseparators : ∀ c, c = comma ∨ c = space → c ∉ hostText false a.address := fun c hc =>
    notMem_hostText (by rcases hc with rfl | rfl <;> decide) false a.address
  have hparse : parse getaddrinfo p (hostText false a.address) =
      portNotAllowed (hostText false a.address) :=
    parse_colon (colon_mem_inetNtop6 a.address) hopen (notMem_hostText (by decide) false a.address)
      hseparators (by rw [portAllowed, hport, hrequired]; rfl)
  rw [htext, hparse]
  rintro ⟨herrors, -⟩
  cases herrors

def loopback : Addr where
  address := #v[0, 0, 0, 0, 0, 0, 0, 0, 0, 0, 0, 0, 0, 0, 0, 1]
  port := 0
  mask := allOnes
  protocol := .tcp

def loopbackHosts : List (Bool × Vector UInt8 16) := [(false, loopback.address)]

def portlessParser : Parser := tcpParser (· = .address)

theorem parse_bare_loopback :
    ¬ ((parse (resolveHosts loopbackHosts) portlessParser (toIpv6String .only loopback)).errors =
        [] ∧
      ∃ r, (parse (resolveHosts loopbackHosts) portlessParser
        (toIpv6String .only loopback)).ranges = [r] ∧ r.address = loopback.address) :=
  parse_bare loopback rfl rfl

/-- The loopback address is refused. -/
theorem loopback_refused : ¬ ∀ (getaddrinfo : GetAddrInfo) (p : Parser) (a : Addr),
    isIpv4 a = false → Numeric getaddrinfo false a.address → p.flags .port = false →
    p.flags .requiredPort = false → p.protocol = some .tcp →
    (parse getaddrinfo p (toIpv6String .only a)).errors = [] ∧
      ∃ r, (parse getaddrinfo p (toIpv6String .only a)).ranges = [r] ∧ r.address = a.address := by
  intro h
  have hread := (h (resolveHosts loopbackHosts) portlessParser loopback (by decide)
    (numeric_resolveHosts (by decide)) rfl rfl rfl).1
  have herrors : (parse (resolveHosts loopbackHosts) portlessParser
      (toIpv6String .only loopback)).errors.length = 1 := by decide
  rw [hread] at herrors
  cases herrors

end SnapCpp.AddrBare
