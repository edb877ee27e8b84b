import SnapCpp.SnapUri

/-!
What a URI leaves in an object. A URI that is refused while it is read leaves the object alone. One
that is stored replaces the whole object if its user name and its password are decoded and its port
is known; otherwise the exception finds the object changed, or the port of the object stays.
-/
namespace SnapCpp.SnapUri

open QString Utf UrlCode UriPath StackMachine

variable (sys : System)

/-- A URI that is not accepted changes nothing, and one that is accepted leaves the same object
whatever was there. -/
structure AllOrNothing (o : SnapUri) (uri : QString) : Prop where
  kept : (setUri sys o uri).1 ≠ .ok () → (setUri sys o uri).2 = o
  determined : (setUri sys o uri).1 = .ok () → ∀ o', setUri sys o' uri = setUri sys o uri

/-- If the URI is well formed, its user name and its password are decoded, and it has a port or its
protocol has one. -/
structure Storable (p : Parts) : Prop where
  username : ∃ name, decode p.server.username = .ok name
  password : ∃ word, decode p.server.password = .ok word
  port : p.server.port ≠ -1

variable {sys} {o : SnapUri} {uri : QString} {p : Parts}

theorem setUri_error {e : Stop} (h : parse sys uri = .error e) :
    setUri sys o uri = (.error e, o) := by
  rw [setUri, h]

def stored (o : SnapUri) (uri username password : QString) (p : Parts) : SnapUri where
  original := uri
  protocol := p.protocol
  username := username
  password := password
  port := if p.server.port = -1 then o.port else p.server.port
  domain := p.server.domain
  topLevelDomain := p.server.tld
  subDomains := p.server.subDomains
  path := p.rest.path
  options := OrderedMap.empty
  queryStrings := p.rest.queryStrings
  anchor := p.rest.anchor

theorem setUri_ok {username password : QString} (h : parse sys uri = .ok p)
    (hname : decode p.server.username = .ok username)
    (hword : decode p.server.password = .ok password) :
    setUri sys o uri = (.ok (), stored o uri username password p) := by
  rw [setUri, h]
  simp only [hname, hword]
  rfl

theorem setUri_late (h : parse sys uri = .ok p)
    (hlate : ¬ ((∃ name, decode p.server.username = .ok name) ∧
      ∃ word, decode p.server.password = .ok word)) :
    ∃ e o', setUri sys o uri = (.error e, o') ∧ o'.original = uri := by
  rw [setUri, h]
  cases hname : decode p.server.username with
  | error e =>
    simp only [hname]
    exact ⟨e, _, rfl, rfl⟩
  | ok name =>
    cases hword : decode p.server.password with
    | error e =>
      simp only [hname, hword]
      exact ⟨e, _, rfl, rfl⟩
    | ok word => exact absurd ⟨⟨name, hname⟩, ⟨word, hword⟩⟩ hlate

theorem parse_nil : parse sys [] = .error .refused := rfl

/-- A URI is stored as a whole or not at all, in any object, if and only if it can be stored once
it is well formed. -/
theorem allOrNothing_iff (uri : QString) : (∀ o, AllOrNothing sys o uri) ↔
    ∀ p, parse sys uri = .ok p → Storable p := by
  constructor
  · intro hall p hp
    have hdecoded : (∃ name, decode p.server.username = .ok name) ∧
        ∃ word, decode p.server.password = .ok word := by
      by_contra hlate
      obtain ⟨e, o', hset, horiginal⟩ := @setUri_late sys {} uri p hp hlate
      have hkept := (hall {}).kept
      rw [hset] at hkept
      have hsame : o' = {} := hkept (by simp)
      rw [hsame] at horiginal
      rw [← horiginal, parse_nil] at hp
      cases hp
    obtain ⟨⟨name, hname⟩, ⟨word, hword⟩⟩ := hdecoded
    refine ⟨⟨name, hname⟩, ⟨word, hword⟩, fun hport => ?_⟩
    have hdetermined := (hall {}).determined
    rw [setUri_ok hp hname hword] at hdetermined
    have hother := hdetermined rfl { port := 81 }
    rw [setUri_ok hp hname hword] at hother
    have hports := congrArg (fun r => r.2.port) hother
    simp only [stored, hport, if_true] at hports
    exact absurd hports (by decide)
  · intro hstorable o
    cases hp : parse sys uri with
    | error e =>
      constructor
      · intro _
        rw [setUri_error hp]
      · intro hok
        rw [setUri_error hp] at hok
        cases hok
    | ok p =>
      obtain ⟨⟨name, hname⟩, ⟨word, hword⟩, hport⟩ := hstorable p hp
      constructor
      · intro hfails
        rw [setUri_ok hp hname hword] at hfails
        exact absurd rfl hfails
      · intro _ o'
        rw [setUri_ok hp hname hword, setUri_ok hp hname hword, stored, stored, if_neg hport,
          if_neg hport]

def oneDomain : System where
  tld := fun b => if b = toUtf8 (ascii "example.com") then some 7 else none
  getservbyname := fun _ _ => none

/-- A user name that cannot be decoded is found when the protocol is stored already. -/
theorem late_exception :
    setUri oneDomain {} (ascii "https://%zz:b@example.com/") =
      (.error (.threw (.escape 122 122)),
        { original := ascii "https://%zz:b@example.com/", protocol := ascii "https" }) ∧
    ¬ ∀ o uri, AllOrNothing oneDomain o uri := by
  have hserver : parseServer oneDomain (ascii "https") (ascii "%zz:b@example.com") = .ok {
      username := ascii "%zz", password := ascii "b", port := 443, subDomains := [[]]
      domain := ascii "example", tld := ascii ".com" } := by decide
  have hset : setUri oneDomain {} (ascii "https://%zz:b@example.com/") =
      (.error (.threw (.escape 122 122)),
        { original := ascii "https://%zz:b@example.com/", protocol := ascii "https" }) := by
    have hparse := @parse_written oneDomain (ascii "https") (ascii "%zz:b@example.com") [slash]
      (by decide) (by decide) (by decide) (by decide) (Or.inr rfl)
    rw [hserver, parseRest_eq] at hparse
    rw [setUri]
    have htext : ascii "https" ++ [colon, slash, slash] ++ ascii "%zz:b@example.com" ++ [slash] =
        ascii "https://%zz:b@example.com/" := by decide
    rw [htext] at hparse
    rw [hparse]
    decide
  refine ⟨hset, fun h => ?_⟩
  have hkept := (h {} (ascii "https://%zz:b@example.com/")).kept
  rw [hset] at hkept
  exact absurd (hkept (by simp)) (by decide)

end SnapCpp.SnapUri
