import SnapCpp.SnapAddr

/-!
The parser of addresses with ports and masks, and the texts that addresses are written with. An
IPv4 address is kept as an IPv6 address that it is mapped into. Names and numeric hosts are
resolved by `getaddrinfo()` of the C library, which is a parameter; the texts are C strings for it.
-/
namespace SnapCpp.AddrParser

open QString QNumber

/-- The protocols of `addr::set_protocol()`. -/
inductive Protocol where
  | ip
  | tcp
  | udp
deriving DecidableEq, Repr

structure Addr where
  address : Vector UInt8 16
  port : UInt16
  mask : Vector UInt8 16
  protocol : Protocol
deriving DecidableEq

/-- `string_ip_t`. -/
inductive StringIp where
  | only
  | brackets
  | port
  | mask
  | bracketsMask
  | all
deriving DecidableEq

def openBracket : UInt16 := 91

def closeBracket : UInt16 := 93

def space : UInt16 := 32

section Printing

open SnapAddr (Address dot colon)

def isIpv4 (a : Addr) : Bool :=
  a.address.toList.take 12 == [0, 0, 0, 0, 0, 0, 0, 0, 0, 0, 255, 255]

def lastFour (bytes : Vector UInt8 16) : Vector UInt8 4 :=
  #v[bytes[12], bytes[13], bytes[14], bytes[15]]

/-- `inet_ntop()` for `AF_INET`. -/
def inetNtop4 (ip : Vector UInt8 4) : QString :=
  [dot].intercalate (ip.toList.map fun b => decimal b.toNat)

def group (high low : UInt8) : UInt16 := high.toUInt16 <<< 8 ||| low.toUInt16

/-- `inet_ntop()` for `AF_INET6`. -/
def inetNtop6 (ip : Vector UInt8 16) : QString :=
  Address.inetNtop6 ⟨#v[group ip[0] ip[1], group ip[2] ip[3], group ip[4] ip[5],
    group ip[6] ip[7], group ip[8] ip[9], group ip[10] ip[11], group ip[12] ip[13],
    group ip[14] ip[15]]⟩

def portText (port : UInt16) : QString := decimal port.toNat

def hasPort (mode : StringIp) : Bool := mode = .port ∨ mode = .all

def hasMask (mode : StringIp) : Bool := mode = .mask ∨ mode = .bracketsMask ∨ mode = .all

def hasBrackets (mode : StringIp) : Bool :=
  mode = .brackets ∨ mode = .bracketsMask ∨ mode = .port ∨ mode = .all

/-- `to_ipv4_string()` of an IPv4 address. -/
def toIpv4String (mode : StringIp) (a : Addr) : QString :=
  inetNtop4 (lastFour a.address) ++
    (if hasPort mode then colon :: portText a.port else []) ++
    (if hasMask mode then slash :: inetNtop4 (lastFour a.mask) else [])

def bracketed (includeBrackets : Bool) (s : QString) : QString :=
  if includeBrackets then openBracket :: s ++ [closeBracket] else s

def toIpv6String (mode : StringIp) (a : Addr) : QString :=
  bracketed (hasBrackets mode) (inetNtop6 a.address) ++
    (if hasPort mode then colon :: portText a.port else []) ++
    (if hasMask mode then slash :: bracketed (hasBrackets mode) (inetNtop6 a.mask) else [])

def toIpv4or6String (mode : StringIp) (a : Addr) : QString :=
  if isIpv4 a then toIpv4String mode a else toIpv6String mode a

end Printing

/-- The `ai_addr` of an answer, by its family. -/
inductive SockAddr where
  | inet (ip : Vector UInt8 4) (port : UInt16)
  | inet6 (ip : Vector UInt8 16) (port : UInt16)
  | other (family : ℕ)
deriving DecidableEq

structure AddrInfo where
  addr : SockAddr
  addrlen : ℕ
  protocol : Protocol
deriving DecidableEq

/-- What the hints ask for: `AI_NUMERICHOST`, and the protocol with its type of socket. -/
structure Hints where
  numericHost : Bool
  protocol : Option Protocol
deriving DecidableEq

/-- `getaddrinfo()` of a host and a service; an error comes with its number and its texts. -/
abbrev GetAddrInfo := QString → QString → Hints → Except QString (List AddrInfo)

/-- The size of `struct sockaddr_in`. -/
def sizeofInet : ℕ := 16

/-- The size of `struct sockaddr_in6`. -/
def sizeofInet6 : ℕ := 28

def cStr (s : QString) : QString := s.takeWhile (· ≠ 0)

def hintProtocol : Option Protocol → Option Protocol
  | some .tcp => some .tcp
  | some .udp => some .udp
  | _ => none

inductive Flag where
  | address
  | requiredAddress
  | port
  | requiredPort
  | mask
  | multiAddressesCommas
  | multiAddressesSpaces
  | multiAddressesCommasAndSpaces
  | multiPortsSemicolons
  | multiPortsCommas
  | portRange
  | addressRange
deriving DecidableEq

/-- What the parser is set up with; `none` is -1 for the protocol and the port. -/
structure Parser where
  flags : Flag → Bool
  defaultAddress4 : QString
  defaultAddress6 : QString
  defaultMask4 : QString
  defaultMask6 : QString
  protocol : Option Protocol
  defaultPort : Option UInt16

/-- The errors that were emitted, and the ranges, of which the parser sets the first address
only. -/
structure Outcome where
  errors : List QString
  ranges : List Addr

namespace Outcome

def error (message : QString) : Outcome := ⟨[message], []⟩

def append (a b : Outcome) : Outcome := ⟨a.errors ++ b.errors, a.ranges ++ b.ranges⟩

def empty : Outcome := ⟨[], []⟩

end Outcome

section Parsing

open SnapAddr (dot colon)

variable (getaddrinfo : GetAddrInfo) (p : Parser)

/-- What is in front of the first `c`, or everything. -/
def before (c : UInt16) (s : QString) : QString := s.takeWhile (· ≠ c)

/-- What follows the first `c`. -/
def after (c : UInt16) (s : QString) : QString := (s.dropWhile (· ≠ c)).tail

def portAllowed : Bool := p.flags .port || p.flags .requiredPort

def defaultPortText : QString := p.defaultPort.elim [] portText

def mapped (ip : Vector UInt8 4) : Vector UInt8 16 :=
  #v[0, 0, 0, 0, 0, 0, 0, 0, 0, 0, 255, 255, ip[0], ip[1], ip[2], ip[3]]

def allOnes : Vector UInt8 16 := Vector.replicate 16 255

def sizeError (addrlen : ℕ) (expected : QString) : QString :=
  ascii "Unsupported address size (" ++ decimal addrlen ++ expected ++ ascii ")."

def inetSizeError (addrlen : ℕ) : QString :=
  sizeError addrlen (ascii ", expected" ++ decimal sizeofInet)

def inet6SizeError (addrlen : ℕ) : QString :=
  sizeError addrlen (ascii ", expected " ++ decimal sizeofInet6)

def readInfo (first : Bool) (info : AddrInfo) : Outcome :=
  match info.addr with
  | .inet ip port =>
      if info.addrlen ≠ sizeofInet then .error (inetSizeError info.addrlen)
      else ⟨[], [⟨mapped ip, port, allOnes, info.protocol⟩]⟩
  | .inet6 ip port =>
      if info.addrlen ≠ sizeofInet6 then .error (inet6SizeError info.addrlen)
      else ⟨[], [⟨ip, port, allOnes, info.protocol⟩]⟩
  | .other family =>
      if first then .error (ascii "Unsupported address family " ++ decimal family ++ ascii ".")
      else .empty

def readInfos : List AddrInfo → Outcome
  | [] => .empty
  | info :: rest =>
      rest.foldl (fun o info => o.append (readInfo false info)) (readInfo true info)

def parseAddressPort (address portStr defaultAddress : QString) : Outcome :=
  if portStr = [] ∧ p.flags .requiredPort then .error (ascii "Required port is missing.")
  else if address = [] ∧ p.flags .requiredAddress then
    .error (ascii "Required address is missing.")
  else
    let address := if address = [] then defaultAddress else address
    match getaddrinfo (cStr address) (cStr portStr) ⟨false, hintProtocol p.protocol⟩ with
    | .error texts =>
        .error (ascii "Invalid address in \"" ++ address ++
          (if portStr = [] then [] else [colon]) ++ portStr ++ ascii "\" error " ++ texts)
    | .ok infos => readInfos infos

def parseAddress4 (input : QString) : Outcome :=
  if portAllowed p then
    let address := before colon input
    let portStr := after colon input
    parseAddressPort getaddrinfo p (if address = [] then p.defaultAddress4 else address)
      (if portStr = [] then defaultPortText p else portStr) (ascii "0.0.0.0")
  else if colon ∈ input then .error (ascii "Port not allowed (" ++ input ++ ascii ").")
  else
    parseAddressPort getaddrinfo p (if input = [] then p.defaultAddress4 else input)
      (defaultPortText p) (ascii "0.0.0.0")

/-- `parse_address6()`. The port is looked for from the closing bracket on, and from the start
where there is no bracket. -/
def parseAddress6 (input : QString) : Outcome :=
  let opened := input.head? = some openBracket
  if opened ∧ closeBracket ∉ input then
    .error (ascii "IPv6 is missing the ']' (" ++ input ++ ascii ").")
  else
    let address := if opened then (before closeBracket input).tail else []
    let rest := if opened then input.dropWhile (· ≠ closeBracket) else input
    if colon ∈ rest ∧ ¬ portAllowed p then
      .error (ascii "Port not allowed (" ++ input ++ ascii ").")
    else
      parseAddressPort getaddrinfo p (if address = [] then p.defaultAddress6 else address)
        (if colon ∈ rest then after colon rest else defaultPortText p) (ascii "::")

inductive MaskNumber where
  | number (count : ℕ)
  | tooLarge
  | text

def scanNumber (count : ℕ) : QString → MaskNumber
  | [] => .number count
  | c :: rest =>
      if isDigit c then
        if 1000 < 10 * count + digitValue c then .tooLarge
        else scanNumber (10 * count + digitValue c) rest
      else .text

def isMask6 (mask : QString) : Bool :=
  if mask.head? = some openBracket then true
  else
    match scanNumber 0 (cStr mask) with
    | .number count => 32 < count
    | _ => false

def parseAddress (input mask : QString) : Outcome :=
  if input = [] ∨ input.head? = some colon then
    if mask ≠ [] then
      if isMask6 mask then parseAddress6 getaddrinfo p input else parseAddress4 getaddrinfo p input
    else if p.defaultAddress4 = [] ∧ p.defaultAddress6 ≠ [] then parseAddress6 getaddrinfo p input
    else parseAddress4 getaddrinfo p input
  else if input.head? = some openBracket ∨ closeBracket ∈ input then
    parseAddress6 getaddrinfo p input
  else if ¬ portAllowed p ∧ colon ∈ input ∧ dot ∉ before colon input then
    parseAddress6 getaddrinfo p input
  else parseAddress4 getaddrinfo p input

def clearBits : ℕ → List UInt8 → List UInt8
  | _, [] => []
  | count, _ :: rest =>
      if 8 < count then 0 :: clearBits (count - 8) rest else UInt8.ofNat (255 <<< count) :: rest

theorem length_clearBits (count : ℕ) (bytes : List UInt8) :
    (clearBits count bytes).length = bytes.length := by
  induction bytes generalizing count with
  | nil => rfl
  | cons b rest ih =>
    rw [clearBits]
    split_ifs
    · rw [List.length_cons, List.length_cons, ih]
    · rfl

def maskBits (count : ℕ) : Vector UInt8 16 :=
  ⟨(clearBits count allOnes.toList.reverse).reverse.toArray, by simp [length_clearBits]⟩

def maskIpv4 (ip : Vector UInt8 4) : Vector UInt8 16 :=
  #v[255, 255, 255, 255, 255, 255, 255, 255, 255, 255, 255, 255, ip[0], ip[1], ip[2], ip[3]]

def parseMaskAddress (mask : QString) (cidr : Addr) : Except QString Addr :=
  let hints := ⟨true, hintProtocol (some cidr.protocol)⟩
  let failed (texts : QString) : QString :=
    ascii "Invalid mask in \"/" ++ mask ++ ascii "\", error " ++ texts
  if isIpv4 cidr then
    if mask.head? = some openBracket then
      .error (ascii "The address uses the IPv4 syntax, the mask cannot use IPv6.")
    else
      match getaddrinfo (cStr mask) (portText cidr.port) hints with
      | .error texts => .error (failed texts)
      | .ok infos =>
          match infos.head? with
          | some ⟨.inet ip _, addrlen, _⟩ =>
              if addrlen ≠ sizeofInet then .error (inetSizeError addrlen)
              else .ok { cidr with mask := maskIpv4 ip }
          | _ => .error (ascii ("Incompatible address between the address and" ++
              " mask address (first was an IPv4 second an IPv6)."))
  else if mask.head? ≠ some openBracket then
    .error (ascii "The address uses the IPv6 syntax, the mask cannot use IPv4.")
  else if mask.getLast? ≠ some closeBracket then
    .error (ascii "The IPv6 mask is missing the ']' (" ++ mask ++ ascii ").")
  else if mask.tail.dropLast = [] then .ok cidr
  else
    match getaddrinfo (cStr mask.tail.dropLast) (portText cidr.port) hints with
    | .error texts => .error (failed texts)
    | .ok infos =>
        match infos.head? with
        | some ⟨.inet6 ip _, addrlen, _⟩ =>
            if addrlen ≠ sizeofInet6 then .error (inet6SizeError addrlen)
            else .ok { cidr with mask := ip }
        | _ => .error (ascii ("Incompatible address between the address" ++
            " and mask address (first was an IPv6 second an IPv4)."))

def parseMask (mask : QString) (cidr : Addr) : Except QString Addr :=
  if mask = [] then .ok cidr
  else
    match scanNumber 0 (cStr mask) with
    | .tooLarge =>
        .error (ascii "Mask number too large (" ++ mask ++ ascii ", expected a maximum of 128).")
    | .number count =>
        let size := if isIpv4 cidr then 32 else 128
        if size < count then
          .error (ascii "Unsupported mask size (" ++ decimal count ++ ascii ", expected " ++
            decimal size ++ ascii " at the most for an " ++
            (if isIpv4 cidr then ascii "IPv4)." else ascii "IPv6)."))
        else .ok { cidr with mask := maskBits (size - count) }
    | .text => parseMaskAddress getaddrinfo mask cidr

def defaultMask (a : Addr) : QString :=
  if isIpv4 a then p.defaultMask4 else openBracket :: p.defaultMask6 ++ [closeBracket]

def parseMasks (mask : QString) (found : Outcome) : Outcome :=
  let masked := found.ranges.foldl (fun o a =>
    match parseMask getaddrinfo (if mask = [] then defaultMask p a else mask) a with
    | .error message => o.append (.error message)
    | .ok a => o.append ⟨[], [a]⟩) ⟨found.errors, []⟩
  if masked.errors = [] then masked else ⟨masked.errors, []⟩

def parseCidr (input : QString) : Outcome :=
  if p.flags .mask then
    parseMasks getaddrinfo p (after slash input)
      (parseAddress getaddrinfo p (before slash input) (after slash input))
  else parseAddress getaddrinfo p input []

def parseParts (isSeparator : UInt16 → Bool) (input : QString) : Outcome :=
  ((input.splitOnP isSeparator).filter (· ≠ [])).foldl
    (fun o part => o.append (parseCidr getaddrinfo p part)) .empty

def parse (input : QString) : Outcome :=
  if p.flags .multiAddressesCommasAndSpaces then
    parseParts getaddrinfo p (fun c => c = comma ∨ c = space) input
  else if p.flags .multiAddressesCommas then parseParts getaddrinfo p (· = comma) input
  else if p.flags .multiAddressesSpaces then parseParts getaddrinfo p (· = space) input
  else parseCidr getaddrinfo p input

end Parsing

end SnapCpp.AddrParser

namespace SnapCpp.AddrNetwork

open AddrParser

/-- `s6_addr16` in host order. -/
def groups (ip : Vector UInt8 16) : List UInt16 :=
  [group ip[0] ip[1], group ip[2] ip[3], group ip[4] ip[5], group ip[6] ip[7],
    group ip[8] ip[9], group ip[10] ip[11], group ip[12] ip[13], group ip[14] ip[15]]

def hostIp (ip : Vector UInt8 16) : UInt32 :=
  (group ip[12] ip[13]).toUInt32 <<< 16 ||| (group ip[14] ip[15]).toUInt32

end SnapCpp.AddrNetwork
