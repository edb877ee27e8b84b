import SnapCpp.LockSweep

/-!
The iterator of the first loop of `cleanup()`. A turn tests the tickets of an object
and erases those that timed out; if there were some, `activate_first_lock()` tests
the others again, with later readings of the clock, and may erase the object itself.
-/
namespace SnapCpp.LockDaemon

open QString LockTicket

def Clock.skip : ℕ → Clock → Clock
  | 0, c => c
  | n + 1, c => skip n c.next

/-- The entries that one test each, at successive readings of the clock, leaves. -/
def survivors (heap : Ptr → Ticket) : List (QString × Ptr) → Clock → List (QString × Ptr)
  | [], _ => []
  | e :: rest, c =>
      if (heap e.2).timedOut c.now then survivors heap rest c.next
      else e :: survivors heap rest c.next

namespace Daemon

/-- One turn of the outer loop, up to the advance of the iterator: it fails if the
entry that is then advanced from is no longer in the map. -/
def visit (objectName : QString) (d : Daemon) : Except Failure Daemon :=
  let r := expireTickets objectName (d.fTickets.group objectName).entries false d
  if (r.2.fTickets.group objectName).isEmpty then .ok r.2
  else if r.1 then
    let d₁ := r.2.activateFirstLock objectName
    if (d₁.fTickets.group objectName).isEmpty then .error .invalidIterator else .ok d₁
  else .ok r.2

/-- The entry behind the one of an object, which `erase()` returns and `++` moves to. -/
def after (d : Daemon) (objectName : QString) : Option QString :=
  d.fTickets.names.find? fun name => objectName < name

end Daemon

/-- The iterator goes from an object, or `end()`, through these objects to `end()`. -/
inductive Walks : Option QString → Daemon → List QString → Daemon → Prop
  | done (d : Daemon) : Walks none d [] d
  | turn {objectName : QString} {d d₁ d' : Daemon} {visits : List QString}
      (hvisit : d.visit objectName = .ok d₁)
      (hrest : Walks (d₁.after objectName) d₁ visits d') :
      Walks (some objectName) d (objectName :: visits) d'

/-- The first loop of `cleanup()` never advances from an erased entry, and visits every
object present at entry exactly once. -/
def CleansUp (d : Daemon) : Prop :=
  ∃ visits d', Walks d.fTickets.names.head? d visits d' ∧
    ∀ objectName ∈ d.fTickets.names, visits.count objectName = 1

/-- Some tickets of an object timed out when they were tested, some did not, and those
all did when they were tested again, after the first test of every ticket. -/
def Crossed (d : Daemon) (objectName : QString) : Prop :=
  let entries := (d.fTickets.group objectName).entries
  let left := survivors d.heap entries d.clock
  left ≠ [] ∧ left.length < entries.length ∧
    survivors d.heap left (Clock.skip entries.length d.clock) = []

section Turn

variable {heap heap' : Ptr → Ticket} {d : Daemon} {o : QString}

theorem survivors_congr (h : ∀ q now, (heap q).timedOut now = (heap' q).timedOut now)
    (l : List (QString × Ptr)) (c : Clock) : survivors heap l c = survivors heap' l c := by
  induction l generalizing c with
  | nil => rfl
  | cons e rest ih => rw [survivors, survivors, h, ih]

theorem length_survivors_le (heap : Ptr → Ticket) (l : List (QString × Ptr)) (c : Clock) :
    (survivors heap l c).length ≤ l.length := by
  induction l generalizing c with
  | nil => rfl
  | cons e rest ih =>
    have hrest := ih c.next
    rw [survivors]
    split_ifs
    · exact hrest.trans (Nat.le_succ _)
    · exact Nat.succ_le_succ hrest

def SameTimeouts (d d' : Daemon) : Prop :=
  ∀ q now, (d'.heap q).timedOut now = (d.heap q).timedOut now

theorem erase_entries {K V : Type*} [LinearOrder K] {m : OrderedMap K V} {key : K} {p : V}
    {front rest : List (K × V)} (h : m.entries = front ++ (key, p) :: rest) :
    (m.erase key).entries = front ++ rest := by
  have hsorted := m.sorted
  rw [h] at hsorted
  obtain ⟨-, htail, hcross⟩ := List.pairwise_append.mp hsorted
  have hfront : front.filter (fun e => e.1 ≠ key) = front := by
    refine List.filter_eq_self.mpr fun e he => decide_eq_true ?_
    exact ne_of_lt (hcross e he (key, p) List.mem_cons_self)
  have hrest : rest.filter (fun e => e.1 ≠ key) = rest := by
    refine List.filter_eq_self.mpr fun e he => decide_eq_true ?_
    exact (ne_of_lt ((List.pairwise_cons.mp htail).1 e he)).symm
  calc (m.erase key).entries = m.entries.filter fun e => e.1 ≠ key := rfl
    _ = front ++ rest := by
      rw [h, List.filter_append, List.filter_cons, if_neg (by simp), hfront, hrest]

/-- A ticket that timed out leaves its object; the others are as they were. -/
theorem expire_spec {key : QString} {p : Ptr} (front : List (QString × Ptr))
    {rest : List (QString × Ptr)}
    (h : (d.fTickets.group o).entries = front ++ (key, p) :: rest) :
    (((d.tick.lockFailed p).eraseTicket o key).fTickets.group o).entries = front ++ rest ∧
      SameTimeouts d ((d.tick.lockFailed p).eraseTicket o key) ∧
      ((d.tick.lockFailed p).eraseTicket o key).clock = d.clock.next := by
  refine ⟨?_, fun q now => ?_, rfl⟩
  · rw [eraseTicket_group, if_pos rfl]
    exact erase_entries h
  · rw [eraseTicket_heap, lockFailed_heap_timedOut, tick_heap]

/-- The inner loop of `cleanup()`. -/
theorem expireTickets_spec (l front : List (QString × Ptr)) (flag : Bool) (d : Daemon)
    (h : (d.fTickets.group o).entries = front ++ l) :
    ((Daemon.expireTickets o l flag d).2.fTickets.group o).entries =
        front ++ survivors d.heap l d.clock ∧
      SameTimeouts d (Daemon.expireTickets o l flag d).2 ∧
      (Daemon.expireTickets o l flag d).2.clock = Clock.skip l.length d.clock ∧
      ((Daemon.expireTickets o l flag d).1 = true ↔
        flag = true ∨ (survivors d.heap l d.clock).length < l.length) := by
  induction l generalizing front flag d with
  | nil => exact ⟨h, fun _ _ => rfl, rfl, by simp [Daemon.expireTickets]⟩
  | cons e rest ih =>
    obtain ⟨key, p⟩ := e
    rw [Daemon.expireTickets, survivors]
    by_cases hout : (d.heap p).timedOut d.clock.now = true
    · rw [if_pos hout, if_pos hout]
      obtain ⟨hgroup, hsame, hclock⟩ := expire_spec front h
      obtain ⟨hleft, hheap, hskip, hflag⟩ := ih front true _ hgroup
      have hle := length_survivors_le d.heap rest d.clock.next
      rw [survivors_congr hsame, hclock] at hleft hflag
      refine ⟨hleft, fun q now => (hheap q now).trans (hsame q now), ?_, ?_⟩
      · rw [hskip, hclock]
        rfl
      · rw [hflag]
        simp only [true_or, List.length_cons, true_iff]
        exact .inr (Nat.lt_succ_of_le hle)
    · rw [if_neg hout, if_neg hout]
      have hgroup : (d.tick.fTickets.group o).entries = (front ++ [(key, p)]) ++ rest := by
        rw [tick_fTickets, h, List.append_assoc]
        rfl
      obtain ⟨hleft, hheap, hskip, hflag⟩ := ih (front ++ [(key, p)]) flag d.tick hgroup
      refine ⟨?_, hheap, hskip, ?_⟩
      · rw [hleft, List.append_assoc]
        rfl
      · rw [hflag, List.length_cons, List.length_cons, Nat.succ_lt_succ_iff]
        rfl

theorem activateFirst_spec (l : List (QString × Ptr)) (d : Daemon)
    (h : (d.fTickets.group o).entries = l) :
    ((Daemon.activateFirst o l d).fTickets.group o).entries = [] ↔
      survivors d.heap l d.clock = [] := by
  induction l generalizing d with
  | nil => exact iff_of_true h rfl
  | cons e rest ih =>
    obtain ⟨key, p⟩ := e
    rw [Daemon.activateFirst, survivors]
    by_cases hout : (d.heap p).timedOut d.clock.now = true
    · rw [if_pos hout, if_pos hout]
      obtain ⟨hgroup, hsame, hclock⟩ := expire_spec [] h
      rw [ih _ hgroup, survivors_congr hsame, hclock]
    · rw [if_neg hout, if_neg hout, activateLock_fTickets, tick_fTickets, h]
      exact iff_of_false (List.cons_ne_nil _ _) (List.cons_ne_nil _ _)

theorem visit_ok_iff (d : Daemon) (o : QString) : (∃ d₁, d.visit o = .ok d₁) ↔ ¬Crossed d o := by
  obtain ⟨hleft, hsame, hclock, hflag⟩ :=
    expireTickets_spec (d.fTickets.group o).entries [] false d rfl
  rw [List.nil_append] at hleft
  have hfirst := activateFirst_spec (o := o) _ _ hleft
  rw [survivors_congr hsame, hclock] at hfirst
  have hempty : ∀ m : OrderedMap QString Ptr, m.isEmpty = true ↔ m.entries = [] :=
    fun m => List.isEmpty_iff
  rw [Daemon.visit, Crossed]
  simp only [hempty, hflag, hleft, Daemon.activateFirstLock, hfirst, Bool.false_eq_true, false_or]
  by_cases hnone : survivors d.heap (d.fTickets.group o).entries d.clock = []
  · rw [if_pos hnone]
    exact iff_of_true ⟨_, rfl⟩ fun h => h.1 hnone
  · rw [if_neg hnone]
    by_cases hsome : (survivors d.heap (d.fTickets.group o).entries d.clock).length <
        (d.fTickets.group o).entries.length
    · rw [if_pos hsome]
      by_cases hgone : survivors d.heap (survivors d.heap (d.fTickets.group o).entries d.clock)
          (Clock.skip (d.fTickets.group o).entries.length d.clock) = []
      · rw [if_pos hgone]
        refine iff_of_false ?_ (not_not.mpr ⟨hnone, hsome, hgone⟩)
        rintro ⟨d₁, hd₁⟩
        cases hd₁
      · rw [if_neg hgone]
        exact iff_of_true ⟨_, rfl⟩ fun h => hgone h.2.2
    · rw [if_neg hsome]
      exact iff_of_true ⟨_, rfl⟩ fun h => hsome h.2.1

variable {o' : QString}

theorem expireTickets_group (hne : o' ≠ o) (l : List (QString × Ptr)) (flag : Bool) (d : Daemon) :
    (Daemon.expireTickets o l flag d).2.fTickets.group o' = d.fTickets.group o' := by
  induction l generalizing flag d with
  | nil => rfl
  | cons e rest ih =>
    rw [Daemon.expireTickets]
    split_ifs
    · rw [ih, eraseTicket_group, if_neg hne]
      rfl
    · rw [ih]
      rfl

theorem activateFirst_group (hne : o' ≠ o) (l : List (QString × Ptr)) (d : Daemon) :
    (Daemon.activateFirst o l d).fTickets.group o' = d.fTickets.group o' := by
  induction l generalizing d with
  | nil => rfl
  | cons e rest ih =>
    rw [Daemon.activateFirst]
    split_ifs
    · rw [ih, eraseTicket_group, if_neg hne]
      rfl
    · rfl

theorem visit_group {d₁ : Daemon} (hne : o' ≠ o) (h : d.visit o = .ok d₁) :
    d₁.fTickets.group o' = d.fTickets.group o' := by
  have hexpire := expireTickets_group hne (d.fTickets.group o).entries false d
  simp only [Daemon.visit] at h
  split_ifs at h
  · rw [← Except.ok.inj h, hexpire]
  · rw [← Except.ok.inj h, Daemon.activateFirstLock, activateFirst_group hne, hexpire]
  · rw [← Except.ok.inj h, hexpire]

theorem names_sorted (d : Daemon) : d.fTickets.names.Pairwise (· < ·) :=
  List.pairwise_map.mpr d.fTickets.groups.sorted

theorem visit_behind {d₁ : Daemon} (h : d.visit o = .ok d₁) :
    d₁.fTickets.names.filter (fun name => o < name) =
      d.fTickets.names.filter fun name => o < name := by
  have hsorted : ∀ d : Daemon, (d.fTickets.names.filter fun name => o < name).Pairwise (· < ·) :=
    fun d => (names_sorted d).filter _
  refine List.Perm.eq_of_pairwise (fun a b _ _ hab hba => absurd hab (lt_asymm hba))
    (hsorted d₁) (hsorted d) ?_
  refine (List.perm_ext_iff_of_nodup ((hsorted d₁).imp ne_of_lt) ((hsorted d).imp ne_of_lt)).mpr ?_
  intro name
  rw [List.mem_filter, List.mem_filter, GroupedMap.mem_names_iff, GroupedMap.mem_names_iff]
  constructor
  · rintro ⟨hmem, hlt⟩
    rw [visit_group (ne_of_gt (of_decide_eq_true hlt)) h] at hmem
    exact ⟨hmem, hlt⟩
  · rintro ⟨hmem, hlt⟩
    rw [← visit_group (ne_of_gt (of_decide_eq_true hlt)) h] at hmem
    exact ⟨hmem, hlt⟩

theorem after_eq (d : Daemon) (o : QString) :
    d.after o = (d.fTickets.names.filter fun name => o < name).head? := by
  rw [Daemon.after, List.head?_filter]

end Turn

section Walk

variable {d d' : Daemon}

theorem cleanupTickets_cons (o : QString) (rest : List QString) (d : Daemon) :
    Daemon.cleanupTickets (o :: rest) d = (d.visit o).bind (Daemon.cleanupTickets rest) := by
  rw [Daemon.cleanupTickets, Daemon.visit]
  simp only
  split_ifs <;> rfl

/-- The iterator goes through the objects that are left in order. -/
theorem walks_iff (names : List QString) (d d' : Daemon) (visits : List QString)
    (hsorted : names.Pairwise (· < ·))
    (hnames : ∀ o, names.head? = some o →
      d.fTickets.names.filter (fun name => o < name) = names.tail) :
    Walks names.head? d visits d' ↔ visits = names ∧ Daemon.cleanupTickets names d = .ok d' := by
  induction names generalizing d visits with
  | nil =>
    constructor
    · intro h
      cases h
      exact ⟨rfl, rfl⟩
    · rintro ⟨rfl, h⟩
      obtain rfl := Except.ok.inj h
      exact Walks.done d
  | cons o rest ih =>
    have hnext : ∀ d₁, d.visit o = .ok d₁ → d₁.after o = rest.head? ∧
        ∀ o', rest.head? = some o' →
          d₁.fTickets.names.filter (fun name => o' < name) = rest.tail := by
      intro d₁ hvisit
      have hbehind := (visit_behind hvisit).trans (hnames o rfl)
      refine ⟨by rw [after_eq, hbehind]; rfl, fun o' ho' => ?_⟩
      obtain ⟨rest', rfl⟩ : ∃ rest', rest = o' :: rest' := by
        cases rest with
        | nil => cases ho'
        | cons a rest' =>
          obtain rfl := Option.some.inj ho'
          exact ⟨rest', rfl⟩
      obtain ⟨hfirst, hrest⟩ := List.pairwise_cons.mp hsorted
      have hlt : o < o' := hfirst o' List.mem_cons_self
      calc d₁.fTickets.names.filter (fun name => o' < name)
          = (d₁.fTickets.names.filter fun name => o < name).filter fun name => o' < name := by
            rw [List.filter_filter]
            refine List.filter_congr fun name _ => ?_
            rw [eq_comm, Bool.and_eq_left_iff_imp]
            exact fun h => decide_eq_true (hlt.trans (of_decide_eq_true h))
        _ = (o' :: rest').filter fun name => o' < name := by rw [hbehind]; rfl
        _ = rest' := by
            rw [List.filter_cons, if_neg (by simp), List.filter_eq_self]
            exact fun name hname => decide_eq_true ((List.pairwise_cons.mp hrest).1 name hname)
    have hrest := (List.pairwise_cons.mp hsorted).2
    rw [cleanupTickets_cons]
    constructor
    · intro h
      cases h with
      | turn hvisit hwalks =>
        obtain ⟨hafter, hbehind⟩ := hnext _ hvisit
        rw [hafter, ih _ _ hrest hbehind] at hwalks
        obtain ⟨rfl, hclean⟩ := hwalks
        exact ⟨rfl, by rw [hvisit, Except.bind, hclean]⟩
    · rintro ⟨rfl, hclean⟩
      obtain ⟨d₁, hvisit, hclean⟩ := bind_eq_ok hclean
      obtain ⟨hafter, hbehind⟩ := hnext d₁ hvisit
      refine Walks.turn hvisit ?_
      rw [hafter]
      exact (ih d₁ rest hrest hbehind).mpr ⟨rfl, hclean⟩

theorem walks_names_iff (d d' : Daemon) (visits : List QString) :
    Walks d.fTickets.names.head? d visits d' ↔
      visits = d.fTickets.names ∧ Daemon.cleanupTickets d.fTickets.names d = .ok d' := by
  refine walks_iff _ d d' visits (names_sorted d) fun o ho => ?_
  have hsorted := names_sorted d
  obtain ⟨rest, hnames⟩ := List.head?_eq_some_iff.mp ho
  rw [hnames] at hsorted ⊢
  rw [List.filter_cons, if_neg (by simp), List.tail_cons, List.filter_eq_self]
  exact fun name hname => decide_eq_true ((List.pairwise_cons.mp hsorted).1 name hname)

theorem cleansUp_iff_returns (d : Daemon) :
    CleansUp d ↔ ∃ d', Daemon.cleanupTickets d.fTickets.names d = .ok d' := by
  constructor
  · rintro ⟨visits, d', hwalks, -⟩
    exact ⟨d', ((walks_names_iff d d' visits).mp hwalks).2⟩
  · rintro ⟨d', hclean⟩
    refine ⟨_, d', (walks_names_iff d d' _).mpr ⟨rfl, hclean⟩, fun o ho => ?_⟩
    exact List.count_eq_one_of_mem ((names_sorted d).imp ne_of_lt) ho

theorem cleanupTickets_ok_iff (names : List QString) (d : Daemon) :
    (∃ d', Daemon.cleanupTickets names d = .ok d') ↔
      ∀ front o behind d₁, names = front ++ o :: behind →
        Daemon.cleanupTickets front d = .ok d₁ → ¬Crossed d₁ o := by
  induction names generalizing d with
  | nil =>
    refine iff_of_true ⟨d, rfl⟩ fun front o behind d₁ h => ?_
    exact absurd h.symm (by simp)
  | cons o rest ih =>
    rw [cleanupTickets_cons]
    constructor
    · rintro ⟨d', hclean⟩ front o' behind d₁ hsplit hfront
      obtain ⟨d₂, hvisit, hclean⟩ := bind_eq_ok hclean
      cases front with
      | nil =>
        obtain ⟨rfl, rfl⟩ := List.cons.inj hsplit
        obtain rfl := Except.ok.inj hfront
        exact (visit_ok_iff d o).mp ⟨d₂, hvisit⟩
      | cons a front =>
        obtain ⟨rfl, rfl⟩ := List.cons.inj hsplit
        rw [cleanupTickets_cons, hvisit] at hfront
        exact (ih d₂).mp ⟨d', hclean⟩ front o' behind d₁ rfl hfront
    · intro h
      obtain ⟨d₂, hvisit⟩ := (visit_ok_iff d o).mpr (h [] o rest d rfl rfl)
      rw [hvisit]
      refine (ih d₂).mpr fun front o' behind d₁ hsplit hfront => ?_
      refine h (o :: front) o' behind d₁ (by rw [hsplit]; rfl) ?_
      rw [cleanupTickets_cons, hvisit]
      exact hfront

/-- Whatever the state and the readings of the clock, `cleanup()` never advances from an
erased entry and visits every object once if and only if no turn starts in a state in
which all the tickets of its object would time out, but only some at the first test. -/
theorem cleansUp_iff (d : Daemon) : CleansUp d ↔
    ∀ front o behind d₁, d.fTickets.names = front ++ o :: behind →
      Daemon.cleanupTickets front d = .ok d₁ → ¬Crossed d₁ o := by
  rw [cleansUp_iff_returns, cleanupTickets_ok_iff]

end Walk

def twoDeadlines (c : Clock) : Daemon where
  fServerName := ascii "a"
  fTickets := (GroupedMap.empty.assign (ascii "o") (ascii "k") 0).assign (ascii "o") (ascii "l") 1
  heap p := { (default : Ticket) with fObtentionTimeout := if p = 0 then 10 else 5 }
  clock := c

/-- The clock moves from 10 to 11 between the first tests and the second ones. -/
theorem second_deadline_crossed : ∃ d : Daemon,
    d.clock.readings.Pairwise (· ≤ ·) ∧ ¬CleansUp d := by
  refine ⟨twoDeadlines ⟨10, [10, 11]⟩, by decide, fun h => ?_⟩
  refine (cleanupTickets_ok_iff _ _).mp ((cleansUp_iff_returns _).mp h) [] (ascii "o") []
    (twoDeadlines ⟨10, [10, 11]⟩) rfl rfl ?_
  refine ⟨?_, ?_, ?_⟩ <;> decide

end SnapCpp.LockDaemon
