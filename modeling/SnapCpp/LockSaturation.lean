import SnapCpp.LockFairness

/-!
The order of the ticket keys and the limit of the ticket numbers. Keys with eight hexadecimal
digits sort like the tickets. A number is kept in 32 bits: it is above every MAXTICKET reply that
was counted exactly if each of them leaves room for one more, because the largest 32 bit number
plus one is zero.
-/
namespace SnapCpp.LockSaturation

open QString LockTicket LockDaemon LockNetwork LockOrigin LockQuorum LockFairness

theorem ticketKeyOf_lt_iff (a b : UInt32) (k l : QString) :
    Ticket.ticketKeyOf a k < Ticket.ticketKeyOf b l ↔ a < b ∨ a = b ∧ k < l := by
  have hslash : slash :: k < slash :: l ↔ k < l := by
    rw [List.cons_lt_cons_iff]
    simp
  rw [← hslash]
  exact hex8_append_lt a b (slash :: k) (slash :: l)

def raise (number : UInt32) (n : ℤ) : UInt32 :=
  if n > number.toNat then UInt32.ofInt n else number

/-- The number of a ticket after these replies, which starts with zero. -/
def largest (replies : List ℤ) : UInt32 := replies.foldl raise 0

theorem raise_toNat (number : UInt32) {n : ℤ} (hn : n < 2 ^ 32) :
    ((raise number n).toNat : ℤ) = max n number.toNat :=
  raised_toNat { (default : Ticket) with fOurTicket := number } hn

theorem largest_concat (replies : List ℤ) (n : ℤ) :
    largest (replies ++ [n]) = raise (largest replies) n :=
  List.foldl_concat ..

theorem le_largest {replies : List ℤ} (h : ∀ n ∈ replies, n < 2 ^ 32) :
    ∀ n ∈ replies, n ≤ (largest replies).toNat := by
  induction replies using List.reverseRecOn with
  | nil => simp
  | append_singleton front last ih =>
    have hlast := raise_toNat (largest front) (h last (by simp))
    intro n hn
    rw [largest_concat, hlast]
    rcases List.mem_append.mp hn with hn | hn
    · exact le_max_of_le_right (ih (fun m hm => h m (List.mem_append_left _ hm)) n hn)
    · rw [List.mem_singleton.mp hn]
      exact le_max_left ..

theorem largest_lt {replies : List ℤ} (h : ∀ n ∈ replies, n < 2 ^ 32 - 1) :
    (largest replies).toNat < 2 ^ 32 - 1 := by
  induction replies using List.reverseRecOn with
  | nil => decide
  | append_singleton front last ih =>
    have hlast := h last (by simp)
    have hfront := ih (fun m hm => h m (List.mem_append_left _ hm))
    have hmax := raise_toNat (largest front) (show last < 2 ^ 32 by omega)
    rw [largest_concat]
    omega

theorem le_largest_succ_iff (replies : List ℤ) :
    (∀ n ∈ replies, n ≤ (largest replies + 1).toNat) ↔ ∀ n ∈ replies, n < 2 ^ 32 - 1 := by
  constructor
  · intro h n hn
    have hbound : ∀ m ∈ replies, m < 2 ^ 32 := by
      intro m hm
      have hle := h m hm
      have hlt := (largest replies + 1).toNat_lt
      omega
    have hle := le_largest hbound n hn
    have hsucc := h n hn
    have hlt := (largest replies).toNat_lt
    rw [UInt32.toNat_add, UInt32.toNat_one] at hsucc
    omega
  · intro h n hn
    have hle := le_largest (fun m hm => by have := h m hm; omega) n hn
    have hlt := largest_lt h
    rw [UInt32.toNat_add, UInt32.toNat_one, Nat.mod_eq_of_lt (by omega)]
    omega

structure History where
  daemon : Daemon
  replies : Ptr → List ℤ := fun _ => []

def countedNow (d : Daemon) (p : Ptr) : Command → List ℤ
  | .maxTicket o key n =>
      if countsFor d (.maxTicket o key n) = some (.max, p) then [n] else []
  | _ => []

namespace History

def start (serverName : QString) (debugBuild : Bool) (computers : OrderedMap QString Bool) :
    History where
  daemon :=
    { fServerName := serverName, debugBuild := debugBuild, fComputers := computers,
      clock := ⟨0, []⟩ }

def awake (s : History) (clock : Clock) : Daemon :=
  { s.daemon with clock := clock, outbox := [] }

def receive (s : History) (e : Clock × Message) : Except Failure History := do
  let d ← (s.awake e.1).processMessage e.2
  pure ⟨d, fun p => s.replies p ++ countedNow (s.awake e.1) p e.2.command⟩

def receiveAll (s : History) (messages : List (Clock × Message)) : Except Failure History :=
  messages.foldlM receive s

structure Tracks (replies : List ℤ) (t : Ticket) : Prop where
  pending : t.fAddedTicket = false → t.fOurTicket = largest replies
  given : t.fAddedTicket = true → t.fOurTicket = largest replies + 1

/-- What the history says of the tickets that exist, and of those that do not. -/
structure Kept (s : History) : Prop where
  filed : Filed s.daemon
  tracks : ∀ p, p < s.daemon.next → Tracks (s.replies p) (s.daemon.heap p)
  fresh : ∀ p, s.daemon.next ≤ p → s.replies p = []

variable {s s' : History} {p : Ptr}

theorem receive_ok {e : Clock × Message} (h : s.receive e = .ok s') :
    (s.awake e.1).processMessage e.2 = .ok s'.daemon ∧
      ∀ p, s'.replies p = s.replies p ++ countedNow (s.awake e.1) p e.2.command := by
  unfold receive at h
  cases hd : (s.awake e.1).processMessage e.2 with
  | error e => simp [hd, bind, Except.bind] at h
  | ok d =>
    simp only [hd, bind, Except.bind, pure, Except.pure, Except.ok.injEq] at h
    subst h
    exact ⟨rfl, fun _ => rfl⟩

theorem kept_start (serverName : QString) (debugBuild : Bool)
    (computers : OrderedMap QString Bool) : Kept (start serverName debugBuild computers) where
  filed := ⟨by simp [start], by simp [start], by simp [start], by simp [start], by simp [start],
    by simp [start]⟩
  tracks := fun p hp => absurd hp (Nat.not_lt_zero p)
  fresh := fun _ _ => rfl

theorem countedNow_eq_nil {d : Daemon} {command : Command}
    (h : ∀ o k n, command = .maxTicket o k n → (d.fEnteringTickets.group o).find? k ≠ some p) :
    countedNow d p command = [] := by
  cases command with
  | maxTicket o k n =>
    refine if_neg (fun hcounts => ?_)
    obtain ⟨o', k', n', heq, hfind, -⟩ := countsFor_max hcounts
    cases heq
    exact h o k n rfl hfind
  | _ => rfl

theorem countedNow_maxTicket {d : Daemon} {o k : QString} {n : ℤ}
    (hfind : (d.fEnteringTickets.group o).find? k = some p) :
    countedNow d p (.maxTicket o k n) = if (d.heap p).fAddedTicket then [] else [n] := by
  simp only [countedNow, countsFor, hfind]
  cases (d.heap p).fAddedTicket <;> simp

theorem Tracks.maxTicket {replies : List ℤ} {t : Ticket} (h : Tracks replies t) {n : ℤ}
    {host : Host} {r : Ticket × List Message} (hr : t.maxTicket n host = .ok r) :
    Tracks (replies ++ if t.fAddedTicket then [] else [n]) r.1 := by
  rcases t.maxTicket_cases host n with ⟨hadded, hr'⟩ | ⟨hadded, -, hr'⟩ | ⟨hadded, -, hr'⟩
  · cases hr.symm.trans hr'
    rw [if_pos hadded, List.append_nil]
    exact h
  · cases hr.symm.trans hr'
    rw [if_neg (by simp [hadded])]
    refine ⟨fun _ => ?_, fun htrue => ?_⟩
    · rw [largest_concat, ← h.pending hadded]
      rfl
    · rw [hadded] at htrue
      cases htrue
  · cases hr.symm.trans hr'
    rw [if_neg (by simp [hadded])]
    refine ⟨fun hfalse => (by cases hfalse), fun _ => ?_⟩
    rw [largest_concat, ← h.pending hadded]
    rfl

theorem Kept.receive {e : Clock × Message} (hs : Kept s)
    (h : s.receive e = .ok s') : Kept s' := by
  obtain ⟨hd, hreplies⟩ := receive_ok h
  have hfiled : Filed (s.awake e.1) :=
    hs.filed.shrink ⟨le_rfl, (Stable.refl _).ticket⟩ ⟨fun _ _ _ h => h, fun _ _ _ h => h⟩
  refine ⟨processMessage_filed hd hfiled, fun p hp => ?_, fun p hp => ?_⟩
  · rw [hreplies]
    rcases processMessage_number hd p hp with ⟨o, k, n, r, hcommand, hfind, hr, hheap⟩ |
      ⟨hsame, hother⟩
    · have htracked := (hs.tracks p (hs.filed.entering_lt o k p hfind)).maxTicket hr
      rw [hheap, hcommand, countedNow_maxTicket hfind]
      exact htracked
    · rw [countedNow_eq_nil hother, List.append_nil]
      by_cases hlt : p < s.daemon.next
      · rw [base_of_lt (show p < (s.awake e.1).next from hlt)] at hsame
        obtain ⟨hour, hadded⟩ := hsame
        have htracked := hs.tracks p hlt
        exact ⟨fun hfalse => hour.trans (htracked.pending (hadded.symm.trans hfalse)),
          fun htrue => hour.trans (htracked.given (hadded.symm.trans htrue))⟩
      · rw [base, if_neg (show ¬ p < (s.awake e.1).next from hlt)] at hsame
        obtain ⟨hour, hadded⟩ := hsame
        rw [hs.fresh p (not_lt.mp hlt)]
        refine ⟨fun _ => hour, fun htrue => ?_⟩
        rw [hadded] at htrue
        cases htrue
  · have hnext : (s.awake e.1).next ≤ s'.daemon.next := processMessage_next_le hd
    rw [hreplies, hs.fresh p (hnext.trans hp), List.nil_append]
    refine countedNow_eq_nil (fun o k n _ hfind => ?_)
    exact absurd (hs.filed.entering_lt o k p hfind) (not_lt.mpr (hnext.trans hp))

theorem receiveAll_kept {messages : List (Clock × Message)} (hs : Kept s)
    (h : s.receiveAll messages = .ok s') : Kept s' :=
  (Runs.of_foldlM receive messages s s' h).invariant Kept hs (fun _ _ _ ha hab => ha.receive hab)

/-- The number that the ticket was given is no smaller than a reply it counted. -/
def NeverWraps (s : History) (p : Ptr) : Prop :=
  ∀ n ∈ s.replies p, n ≤ (s.daemon.heap p).fOurTicket.toNat

theorem Kept.neverWraps_iff (hs : Kept s) (hp : p < s.daemon.next)
    (hadded : (s.daemon.heap p).fAddedTicket = true) :
    s.NeverWraps p ↔ ∀ n ∈ s.replies p, n < 2 ^ 32 - 1 := by
  rw [NeverWraps, (hs.tracks p hp).given hadded]
  exact le_largest_succ_iff (s.replies p)

end History

/-- Ticket keys sort by their numbers and then by their entering keys. And whatever messages a
daemon has processed, the number of a ticket is above the replies it counted exactly if none of
them was the largest 32 bit number or more. -/
theorem keys_sort_numbers_wrap (serverName : QString) (debugBuild : Bool)
    (computers : OrderedMap QString Bool) (messages : List (Clock × Message)) (s : History)
    (hrun : (History.start serverName debugBuild computers).receiveAll messages = .ok s)
    (p : Ptr) (hp : p < s.daemon.next) (hadded : (s.daemon.heap p).fAddedTicket = true) :
    (∀ (a b : UInt32) (k l : QString),
      Ticket.ticketKeyOf a k < Ticket.ticketKeyOf b l ↔ a < b ∨ a = b ∧ k < l) ∧
    (s.NeverWraps p ↔ ∀ n ∈ s.replies p, n < 2 ^ 32 - 1) :=
  ⟨ticketKeyOf_lt_iff, (History.receiveAll_kept
    (History.kept_start serverName debugBuild computers) hrun).neverWraps_iff hp hadded⟩

/-- A client of daemon `a` asks for the object `o`, and the one reply has the number `n`. -/
def oneReply (n : ℤ) : List (Clock × Message) :=
  [{ sentFromServer := [97], sentFromService := [99], command := .lock [111] 1 (some 100) 10 },
    { sentFromServer := [97],
      command := .lockEntering [111] [97, 47, 49] (some 100) 10 [97, 47, 99] },
    { sentFromServer := [97], command := .lockEntered [111] [97, 47, 49] },
    { sentFromServer := [97], command := .maxTicket [111] [97, 47, 49] n }].map
    (fun m => (⟨0, []⟩, m))

def afterReply (n : ℤ) : History :=
  let s := History.start [97] false (knownTo single [97])
  match s.receiveAll (oneReply n) with
  | .ok s => s
  | .error _ => s

theorem keys_sort_numbers_wrap_seven : (afterReply 7).NeverWraps 0 :=
  (keys_sort_numbers_wrap [97] false (knownTo single [97]) (oneReply 7) (afterReply 7) rfl 0
    (by decide) (by decide)).2.mpr (by decide)

/-- A ticket that counts the largest number gets the number zero. -/
theorem number_wraps :
    ¬ ∀ (serverName : QString) (computers : OrderedMap QString Bool)
      (messages : List (Clock × Message)) (s : History) (p : Ptr),
      (History.start serverName false computers).receiveAll messages = .ok s →
      p < s.daemon.next → (s.daemon.heap p).fAddedTicket = true → s.NeverWraps p := by
  intro hall
  have hwrap := hall [97] (knownTo single [97]) (oneReply 4294967295) (afterReply 4294967295) 0
    rfl (by decide) (by decide)
  have hreplies : (afterReply 4294967295).replies 0 = [4294967295] := by decide
  have hnumber : ((afterReply 4294967295).daemon.heap 0).fOurTicket = 0 := by decide
  have hle := hwrap 4294967295 (by rw [hreplies]; exact List.mem_singleton_self _)
  rw [hnumber] at hle
  exact absurd hle (by decide)

end SnapCpp.LockSaturation
