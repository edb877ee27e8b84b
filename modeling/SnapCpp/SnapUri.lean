import SnapCpp.UriPath
import SnapCpp.UrlCode

/-!
The URI object of the websites. A URI is read in one go: its parts are found and most of them are
decoded before the first one is stored, but the user name and the password are decoded while the
parts are stored. The TLD of a domain and the ports of services are looked up by the system.
-/
namespace SnapCpp

open QString

/-- `class snap_uri`. -/
structure SnapUri where
  original : QString := []
  protocol : QString := ascii "http"
  username : QString := []
  password : QString := []
  port : ℤ := 80
  domain : QString := []
  topLevelDomain : QString := []
  subDomains : List QString := []
  path : List QString := []
  options : OrderedMap QString QString := OrderedMap.empty
  queryStrings : OrderedMap QString QString := OrderedMap.empty
  anchor : QString := []
deriving DecidableEq

namespace SnapUri

open TldEmails (Bytes)
open Utf UrlCode UriPath

def colon : UInt16 := 58

def atSign : UInt16 := 64

def question : UInt16 := 63

def hash : UInt16 := 35

def ampersand : UInt16 := 38

def equals : UInt16 := 61

def exclamation : UInt16 := 33

def period : UInt16 := 46

/-- What is looked up: where the TLD of a domain starts when it is a valid one, and the port of a
service with a transport. -/
structure System where
  tld : Bytes → Option ℕ
  getservbyname : Bytes → Bytes → Option ℕ

/-- Reading a URI ends with `false` or with an exception of `urldecode()`. -/
inductive Stop where
  | refused
  | threw (e : DecodeError)
deriving DecidableEq

def cString (s : QString) : QString := s.takeWhile (· ≠ 0)

def decode (s : QString) : Except Stop QString :=
  match urldecode s false with
  | .ok t => .ok t
  | .error e => .error (.threw e)

variable (sys : System)

def protocolToPort (protocol : QString) : ℤ :=
  if protocol = ascii "http" then 80
  else if protocol = ascii "https" then 443
  else if protocol = ascii "ftp" then 21
  else if protocol = ascii "ssh" then 22
  else if protocol = ascii "telnet" then 23
  else if protocol = ascii "smtp" then 25
  else if protocol = ascii "gopher" then 70
  else
    let p := cBytes (toUtf8 protocol)
    match (sys.getservbyname p [116, 99, 112]).or (sys.getservbyname p [117, 100, 112]) with
    | some port => port
    | none => -1

/-- The pointers that the loop over the authority sets. -/
structure Marks where
  colon1 : Option ℕ := none
  colon2 : Option ℕ := none
  atPlace : Option ℕ := none

def scanAuthority : ℕ → Marks → QString → Option Marks
  | _, m, [] => some m
  | i, m, c :: rest =>
      if c = colon then
        if m.colon1 = none then scanAuthority (i + 1) { m with colon1 := some i } rest
        else if m.atPlace = none ∨ m.colon2 ≠ none then none
        else scanAuthority (i + 1) { m with colon2 := some i } rest
      else if c = atSign then
        if m.atPlace = none then scanAuthority (i + 1) { m with atPlace := some i } rest
        else none
      else scanAuthority (i + 1) m rest

/-- The parts of an authority, which are still encoded. -/
structure Authority where
  username : QString
  password : QString
  host : QString
  port : Option QString
deriving DecidableEq

def splitAuthority (authority : QString) : Option Authority :=
  (scanAuthority 0 {} authority).map fun m =>
    let colon1 := if m.atPlace = none then none else m.colon1
    let colon2 := if m.atPlace = none then m.colon1 else m.colon2
    let s := (colon1.map (· + 1)).getD 0
    let h := (m.atPlace.map (· + 1)).getD s
    { username := authority.take (colon1.getD 0)
      password := (authority.take (m.atPlace.getD 0)).drop s
      host := (authority.take (colon2.getD authority.length)).drop h
      port := colon2.map fun c => authority.drop (c + 1) }

def parsePort (digits : QString) : Option ℕ :=
  if digits = [] then none
  else digits.foldlM (fun port d =>
    if ¬ isDigit d then none
    else if 65535 < port * 10 + (d.toNat - 48) then none
    else some (port * 10 + (d.toNat - 48))) 0

def domainStart (front : Bytes) : ℕ := (front.reverse.dropWhile (· ≠ 46)).length

def subDomain (s : QString) : Except Stop QString := if s = [] then .error .refused else decode s

/-- `process_domain()`: the sub-domains, the domain and the TLD. -/
def processDomain (fullDomainName : QString) : Except Stop (List QString × QString × QString) := do
  let fd := toUtf8 fullDomainName
  match sys.tld (cBytes fd) with
  | none => .error .refused
  | some offset =>
      let tld ← decode (fromUtf8 (cBytes (fd.drop offset)))
      let start := domainStart (fd.take offset)
      let domainName ← decode (fromUtf8 ((fd.take offset).drop start))
      let allSubDomains := fromUtf8 (fd.take (start - 1))
      let subDomainNames := allSubDomains.splitOn period
      if allSubDomains = [] then .ok (subDomainNames, domainName, tld)
      else
        let subDomainNames ← subDomainNames.mapM subDomain
        .ok (subDomainNames, domainName, tld)

/-- The parts of a URI up to its path. -/
structure Server where
  username : QString
  password : QString
  port : ℤ
  subDomains : List QString
  domain : QString
  tld : QString
deriving DecidableEq

def parseServer (protocol authority : QString) : Except Stop Server := do
  match splitAuthority authority with
  | none => .error .refused
  | some a =>
      let port ← match a.port with
        | none => Except.ok (protocolToPort sys protocol)
        | some digits =>
            match parsePort digits with
            | none => .error .refused
            | some port => .ok (port : ℤ)
      if a.host = [] then .error .refused
      else if a.username.isEmpty ^^ a.password.isEmpty then .error .refused
      else
        let (subDomains, domain, tld) ← processDomain sys a.host
        .ok { username := a.username, password := a.password, port, subDomains, domain, tld }

def decodeSegments (s : QString) : Except Stop (List QString) := (skipEmptyParts s).mapM decode

def parsePath (u : QString) : Except Stop (List QString × QString) :=
  let isPath := fun c => c ≠ question ∧ c ≠ hash
  match decodeSegments (u.tail.takeWhile isPath) with
  | .error e => .error e
  | .ok path => .ok (path, u.tail.dropWhile isPath)

inductive Place where
  | between
  | name (s : QString)
  | value (s e : QString)

abbrev Query := OrderedMap QString QString

def store (query : Query) (name value : QString) : Except Stop Query := do
  let name ← decode (if name = [] then ascii "*" else name)
  if query.find? name ≠ none then .error .refused
  else
    let value ← decode value
    .ok (query.insert name value)

def storeAt (query : Query) : Place → Except Stop Query
  | .between => .ok query
  | .name s => store query s []
  | .value s e => store query s e

def parseParameters (query : Query) (place : Place) : QString → Except Stop (Query × QString)
  | [] => (storeAt query place).map (·, [])
  | c :: rest =>
      if c = hash then (storeAt query place).map (·, c :: rest)
      else if c = ampersand then do
        let query ← storeAt query place
        parseParameters query .between rest
      else
        match place with
        | .between => parseParameters query (.name [c]) rest
        | .name s =>
            if c = equals then parseParameters query (.value s []) rest
            else parseParameters query (.name (s ++ [c])) rest
        | .value s e => parseParameters query (.value s (e ++ [c])) rest

def parseQuery (u : QString) : Except Stop (Query × QString) :=
  if u.head? = some question then
    parseParameters OrderedMap.empty (.name []) (u.tail.dropWhile (· = ampersand))
  else .ok (OrderedMap.empty, u)

def parseAnchor (u : QString) : Except Stop (List QString × QString) :=
  if u.head? = some hash then do
    let p ← decode u.tail
    if p.head? = some exclamation then
      let path ← decodeSegments (cString p)
      .ok (path, [])
    else .ok ([], p)
  else .ok ([], [])

structure Rest where
  path : List QString
  queryStrings : Query
  anchor : QString
deriving DecidableEq

def parseRest (u : QString) : Except Stop Rest := do
  let (path, u) ← parsePath u
  let (queryStrings, u) ← parseQuery u
  let (bang, anchor) ← parseAnchor u
  match removeParents (path ++ bang) with
  | none => .error .refused
  | some path => .ok { path, queryStrings, anchor }

/-- What is found in a URI before any of it is stored. -/
structure Parts where
  protocol : QString
  server : Server
  rest : Rest
deriving DecidableEq

def parse (uri : QString) : Except Stop Parts := do
  let text := cString uri
  let protocol := text.takeWhile (· ≠ colon)
  let u := text.dropWhile (· ≠ colon)
  if protocol = [] ∨ ¬ [colon, slash, slash] <+: u then .error .refused
  else
    let u := u.drop 3
    let server ← parseServer sys protocol (u.takeWhile (· ≠ slash))
    let rest ← parseRest (u.dropWhile (· ≠ slash))
    .ok { protocol, server, rest }

/-- `set_uri()`, with the object as it is afterwards. -/
def setUri (o : SnapUri) (uri : QString) : Except Stop Unit × SnapUri :=
  match parse sys uri with
  | .error e => (.error e, o)
  | .ok p =>
      let o := { o with original := uri, protocol := p.protocol }
      match decode p.server.username with
      | .error e => (.error e, o)
      | .ok username =>
          let o := { o with username }
          match decode p.server.password with
          | .error e => (.error e, o)
          | .ok password =>
              (.ok (), {
                o with
                password
                port := if p.server.port = -1 then o.port else p.server.port
                domain := p.server.domain
                topLevelDomain := p.server.tld
                subDomains := p.server.subDomains
                path := p.rest.path
                options := OrderedMap.empty
                queryStrings := p.rest.queryStrings
                anchor := p.rest.anchor })

def fullDomain (o : SnapUri) : QString :=
  let fullDomains := [period].intercalate o.subDomains
  (if fullDomains = [] then [] else fullDomains ++ [period]) ++ o.domain ++ o.topLevelDomain

/-- `path()`, encoded. -/
def encodedPath (o : SnapUri) : QString := [slash].intercalate (o.path.map (urlencode · [126]))

def queryString (o : SnapUri) : QString :=
  o.queryStrings.entries.foldl (fun result e =>
    (if result = [] then [] else result ++ [ampersand]) ++ urlencode e.1 [] ++
      (if e.2 = [] then [] else equals :: urlencode e.2 [44])) []

def portNumber (port : ℤ) : QString :=
  if port < 0 then 45 :: decimal port.natAbs else decimal port.natAbs

/-- `get_uri()`, which throws on an anchor and a hash bang together. -/
def getUri (o : SnapUri) (useHashBang : Bool) : Option QString :=
  let user :=
    if o.username = [] then []
    else urlencode o.username [] ++
      (if o.password = [] then [] else colon :: urlencode o.password []) ++ [atSign]
  let port :=
    if o.port = protocolToPort sys o.protocol then [] else colon :: portNumber o.port
  let p := encodedPath o
  let path :=
    if useHashBang then [] else if p.head? = some slash then p.tail else p
  let q := queryString o
  let query := if q = [] then [] else question :: q
  let front := o.protocol ++ [colon, slash, slash] ++ user ++ urlencode (fullDomain o) [] ++ port ++
    [slash] ++ path ++ query
  if o.anchor = [] then
    if useHashBang ∧ p ≠ [] then some (front ++ [hash, exclamation, slash] ++ p) else some front
  else if useHashBang then none
  else some (front ++ hash :: urlencode o.anchor [33, 47, 126])

section Written

variable {sys} {protocol authority tail : QString}

theorem takeWhile_ne_append {c : UInt16} {front rest : QString} (hfront : c ∉ front)
    (hrest : rest = [] ∨ rest.head? = some c) :
    (front ++ rest).takeWhile (· ≠ c) = front ∧ (front ++ rest).dropWhile (· ≠ c) = rest := by
  have hne : ∀ a ∈ front, decide (a ≠ c) = true := by
    intro a ha
    rw [decide_eq_true_iff]
    rintro rfl
    exact hfront ha
  have hstop : rest.takeWhile (· ≠ c) = [] ∧ rest.dropWhile (· ≠ c) = rest := by
    cases rest with
    | nil => exact ⟨rfl, rfl⟩
    | cons a rest =>
      have ha : a = c := by simpa using hrest
      rw [List.takeWhile_cons_of_neg (by simp [ha]), List.dropWhile_cons_of_neg (by simp [ha])]
      exact ⟨rfl, rfl⟩
  rw [List.takeWhile_append_of_pos hne, List.dropWhile_append_of_pos hne, hstop.1, hstop.2,
    List.append_nil]
  exact ⟨rfl, rfl⟩

theorem cString_of_notMem {s : QString} (h : 0 ∉ s) : cString s = s := by
  have hsplit := (takeWhile_ne_append h (Or.inl rfl)).1
  rwa [List.append_nil] at hsplit

/-- The parts of a URI are read one after another. -/
theorem parse_written (hnul : 0 ∉ protocol ++ [colon, slash, slash] ++ authority ++ tail)
    (hne : protocol ≠ []) (hprotocol : colon ∉ protocol) (hauthority : slash ∉ authority)
    (htail : tail = [] ∨ tail.head? = some slash) :
    parse sys (protocol ++ [colon, slash, slash] ++ authority ++ tail) = (do
      let server ← parseServer sys protocol authority
      let rest ← parseRest tail
      .ok { protocol, server, rest }) := by
  have hassoc : protocol ++ [colon, slash, slash] ++ authority ++ tail =
      protocol ++ ([colon, slash, slash] ++ (authority ++ tail)) := by simp
  have hfront := @takeWhile_ne_append colon protocol ([colon, slash, slash] ++ (authority ++ tail))
    hprotocol (Or.inr rfl)
  obtain ⟨htake, hdrop⟩ := takeWhile_ne_append hauthority htail
  rw [parse, cString_of_notMem hnul, hassoc]
  simp only [hfront.1, hfront.2]
  rw [if_neg (by simp [hne])]
  have hskip : ([colon, slash, slash] ++ (authority ++ tail)).drop 3 = authority ++ tail := rfl
  rw [hskip, htake, hdrop]

/-- The path is normalised in the end. -/
theorem parseRest_eq (u : QString) : parseRest u = (do
    let (path, u) ← parsePath u
    let (queryStrings, u) ← parseQuery u
    let (bang, anchor) ← parseAnchor u
    match StackMachine.normalise setUriKind (path ++ bang) with
    | none => .error .refused
    | some path => .ok { path, queryStrings, anchor }) := by
  simp only [parseRest, removeParents, StackMachine.removeFrom_zero]

end Written

end SnapUri

end SnapCpp
