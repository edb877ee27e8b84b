import SnapCpp.QNumber

/-!
The IP addresses of `snap_addr`: an address is kept as an IPv6 address, an IPv4
address being mapped into it. Addresses are compared as texts when messages are
broadcast, so that the conversion to a text is modelled down to the characters.
-/
namespace SnapCpp.SnapAddr

open QString QNumber

/-- The eight groups of `sin6_addr`, in host order. -/
structure Address where
  groups : Vector UInt16 8
  deriving DecidableEq

inductive NetworkType
  | typePrivate
  | typeCarrier
  | typeLinkLocal
  | typeMulticast
  | typeLoopback
  | typeAny
  | typeUnknown
  deriving DecidableEq

def dot : UInt16 := 46

def colon : UInt16 := 58

namespace Address

def isIpv4 (a : Address) : Bool := a.groups.toList.take 6 == [0, 0, 0, 0, 0, 0xFFFF]

def hostIp (a : Address) : UInt32 :=
  (a.groups[6].toUInt32 <<< 16) ||| a.groups[7].toUInt32

def ipv4Network (ip : UInt32) : NetworkType :=
  if ip &&& 0xFF000000 = 0x0A000000 ∨ ip &&& 0xFFF00000 = 0xAC100000 ∨
      ip &&& 0xFFFF0000 = 0xC0A80000 then .typePrivate
  else if ip &&& 0xFFC00000 = 0x64400000 then .typeCarrier
  else if ip &&& 0xFFFF0000 = 0xA9FE0000 then .typeLinkLocal
  else if ip &&& 0xF0000000 = 0xE0000000 then .typeMulticast
  else if ip &&& 0xFF000000 = 0x7F000000 then .typeLoopback
  else if ip = 0 then .typeAny
  else .typeUnknown

def ipv6Network (groups : List UInt16) : NetworkType :=
  let pre := groups.headD 0
  if groups = List.replicate 8 0 then .typeAny
  else if pre &&& 0xFF00 = 0xFD00 then .typePrivate
  else if pre &&& 0xFFC0 = 0xFE80 ∨ pre &&& 0xFF0F = 0xFF02 then .typeLinkLocal
  else if pre &&& 0xFF0F = 0xFF01 ∨ groups = List.replicate 7 0 ++ [1] then .typeLoopback
  else if pre &&& 0xFF00 = 0xFF00 then .typeMulticast
  else .typeUnknown

/-- `get_network_type()`. -/
def networkType (a : Address) : NetworkType :=
  if a.isIpv4 then ipv4Network a.hostIp else ipv6Network a.groups.toList

def bytes (g : UInt16) : List ℕ := [g.toNat / 256, g.toNat % 256]

def dotted (g h : UInt16) : QString := [dot].intercalate ((bytes g ++ bytes h).map decimal)

def getIpv4String (a : Address) : QString := dotted a.groups[6] a.groups[7]

/-- A number in lowercase hexadecimal digits, without leading zeroes. -/
def hexText (n : ℕ) : QString := (Nat.toDigits 16 n).map (fun c => c.toNat.toUInt16)

def joinGroups (l : List UInt16) : QString := [colon].intercalate (l.map (fun g => hexText g.toNat))

def longestRun : List UInt16 → ℕ → ℕ × ℕ → ℕ × ℕ
  | [], _, best => best
  | g :: rest, offset, best =>
      let run := ((g :: rest).takeWhile (· = 0)).length
      longestRun rest (offset + 1) (if best.2 < run then (offset, run) else best)

/-- `inet_ntop()` of an IPv6 address: the longest run of at least two zero groups is
left out, and an embedded IPv4 address is written in its own notation. -/
def inetNtop6 (a : Address) : QString :=
  let groups := a.groups.toList
  let (base, len) := longestRun groups 0 (0, 0)
  if len < 2 then joinGroups groups
  else
    joinGroups (groups.take base) ++ colon :: colon ::
      (if base = 0 ∧ len = 6 then dotted a.groups[6] a.groups[7]
      else if base = 0 ∧ len = 5 ∧ a.groups[5] = 0xFFFF then
        hexText 0xFFFF ++ colon :: dotted a.groups[6] a.groups[7]
      else joinGroups (groups.drop (base + len)))

def getIpv6String (includeBrackets : Bool) (a : Address) : QString :=
  if includeBrackets then ascii "[" ++ inetNtop6 a ++ ascii "]" else inetNtop6 a

/-- `get_ipv4or6_string()` without the port; the brackets are there by default. -/
def getIpv4or6String (includeBrackets : Bool) (a : Address) : QString :=
  if a.isIpv4 then a.getIpv4String else a.getIpv6String includeBrackets

end Address

open Address

theorem dot_notMem_decimal (n : ℕ) : dot ∉ decimal n := by
  intro h
  exact absurd (isDigit_of_mem_decimal n dot h) (by decide)

theorem dotted_injective {g h g' h' : UInt16} (heq : dotted g h = dotted g' h') :
    g = g' ∧ h = h' := by
  have hsplit : ∀ g h : UInt16, (dotted g h).splitOn dot = (bytes g ++ bytes h).map decimal := by
    intro g h
    refine List.splitOn_intercalate dot ?_ (by simp [bytes])
    intro w hw
    obtain ⟨n, -, rfl⟩ := List.mem_map.mp hw
    exact dot_notMem_decimal n
  have hbytes := congrArg (List.splitOn dot) heq
  rw [hsplit, hsplit] at hbytes
  have hsame := (List.map_injective_iff.mpr (fun m n => decimal_injective)) hbytes
  simp only [bytes, List.cons_append, List.nil_append, List.cons.injEq, and_true] at hsame
  rw [← UInt16.toNat_inj, ← UInt16.toNat_inj]
  omega

theorem comma_notMem_dotted (g h : UInt16) : comma ∉ dotted g h := by
  intro hmem
  simp only [dotted, bytes, List.cons_append, List.nil_append, List.map_cons, List.map_nil,
    List.intercalate_cons_cons, List.intercalate_singleton, List.mem_append,
      List.mem_singleton] at hmem
  have hdigit : ∀ n, comma ∉ decimal n := fun n hc =>
    absurd (isDigit_of_mem_decimal n comma hc) (by decide)
  have hdot : comma ≠ dot := by decide
  simp [hdigit, hdot] at hmem

theorem mem_toDigits_sixteen {n : ℕ} {c : Char} (h : c ∈ Nat.toDigits 16 n) :
    ∃ d < 16, c = Nat.digitChar d := by
  induction n using Nat.strong_induction_on with
  | _ n ih =>
    rw [Nat.toDigits_eq_if (by decide)] at h
    split_ifs at h with hlt
    · exact ⟨n, hlt, List.mem_singleton.mp h⟩
    · rcases List.mem_append.mp h with h | h
      · exact ih (n / 16) (by omega) h
      · exact ⟨n % 16, by omega, List.mem_singleton.mp h⟩

theorem comma_notMem_hexText (n : ℕ) : comma ∉ hexText n := by
  intro hmem
  obtain ⟨c, hc, hcomma⟩ := List.mem_map.mp hmem
  obtain ⟨d, hd, rfl⟩ := mem_toDigits_sixteen hc
  revert hcomma
  have hall : ∀ d < 16, (Nat.digitChar d).toNat.toUInt16 ≠ comma := by decide
  exact hall d hd

theorem comma_notMem_joinGroups (l : List UInt16) : comma ∉ joinGroups l := by
  induction l with
  | nil => exact List.not_mem_nil
  | cons g rest ih =>
    cases rest with
    | nil =>
      simpa [joinGroups] using comma_notMem_hexText g.toNat
    | cons h rest =>
      intro hmem
      simp only [joinGroups, List.map_cons, List.intercalate_cons_cons, List.mem_append,
        List.mem_singleton] at hmem
      rcases hmem with (hmem | hmem) | hmem
      · exact comma_notMem_hexText g.toNat hmem
      · exact absurd hmem (by decide)
      · exact ih hmem

theorem dotted_ne_nil (g h : UInt16) : dotted g h ≠ [] := by
  simp [dotted, bytes, decimal_ne_nil]

/-- The text of an IPv4 address has no brackets to leave out. -/
theorem getIpv4or6String_ipv4 {a : Address} (h : a.isIpv4 = true) (includeBrackets : Bool) :
    a.getIpv4or6String includeBrackets = a.getIpv4String := if_pos h

theorem groups_split (a : Address) :
    a.groups.toList = a.groups.toList.take 6 ++ [a.groups[6], a.groups[7]] := by
  have hlength : a.groups.toList.length = 8 := by simp
  refine List.ext_getElem (by simp) (fun i h₁ h₂ => ?_)
  rw [hlength] at h₁
  interval_cases i <;> simp

theorem comma_notMem_inetNtop6 (a : Address) : comma ∉ inetNtop6 a := by
  have hcolon : comma ≠ colon := by decide
  simp only [inetNtop6]
  split_ifs <;> simp [comma_notMem_joinGroups, comma_notMem_dotted, comma_notMem_hexText, hcolon]

theorem joinGroups_ne_nil {l : List UInt16} (h : 2 ≤ l.length) : joinGroups l ≠ [] := by
  match l with
  | [] => simp at h
  | [g] => simp at h
  | g :: g' :: rest => simp [joinGroups, List.intercalate_cons_cons]

theorem inetNtop6_ne_nil (a : Address) : inetNtop6 a ≠ [] := by
  simp only [inetNtop6]
  split_ifs
  · exact joinGroups_ne_nil (by simp)
  all_goals simp

theorem text_spec (a : Address) :
    comma ∉ a.getIpv4or6String false ∧ a.getIpv4or6String false ≠ [] := by
  unfold getIpv4or6String
  split_ifs
  · exact ⟨comma_notMem_dotted _ _, dotted_ne_nil _ _⟩
  · exact ⟨comma_notMem_inetNtop6 a, inetNtop6_ne_nil a⟩

/-- Different IPv4 addresses have different texts. -/
theorem ipv4_injective {a b : Address} (ha : a.isIpv4 = true) (hb : b.isIpv4 = true)
    (h : a.getIpv4String = b.getIpv4String) : a = b := by
  obtain ⟨h₆, h₇⟩ := dotted_injective h
  have hfront : a.groups.toList.take 6 = b.groups.toList.take 6 :=
    (beq_iff_eq.mp ha).trans (beq_iff_eq.mp hb).symm
  have hlist : a.groups.toList = b.groups.toList := by
    rw [groups_split a, groups_split b, hfront, h₆, h₇]
  cases a
  cases b
  exact congrArg Address.mk (Vector.toList_inj.mp hlist)

end SnapCpp.SnapAddr
