import Darwin.Ipc.Mqueue.Delivery

/-!
# What holds of the message queues

The invariant says where the messages of a port are: handed over, in the queue that its messages go
to, or - while a thread has the queues locked - on their way.  Each primitive of the operations (a
message is enqueued, a thread is given a message, refused one, or woken) keeps it.
-/

namespace Darwin.Ipc.Delivery

open List Sys
open Function (update update_idem update_of_ne update_self)

variable {P S T : Type*} [DecidableEq P] [DecidableEq S] [DecidableEq T]

/-! ## The invariant -/

/-- The thread has been given a message that it has not yet returned. -/
def Thread.Carries (thread : Thread P S) (p : P) (kmsg : Kmsg) (seqno : ℕ) : Prop :=
  thread.status = .holding p kmsg seqno ∨ (thread.status = .woken ∧ thread.remote = some p ∧
      ∀ why, ∃ code, resumeReceive thread.rcv why = .message code kmsg seqno)

/-- The messages of a port that are in a queue. -/
def Sys.queued (s : Sys P S T) (p : P) : List Kmsg := ofPort p (s.messages (s.home p))

/-- The invariant, with the messages of each port that are on their way. -/
structure Inv (s : Sys P S T) (flight : P → List Kmsg) : Prop where
  exclusive : ∀ q, s.messages q = [] ∨ s.threads q = []
  distinct : ∀ q, (s.threads q).Nodup
  waiting : ∀ q t, t ∈ s.threads q ↔ (s.thread t).status = .waiting q
  inProgress : ∀ q t, (s.thread t).status = .waiting q → (s.thread t).rcv.state = machRcvInProgress
  home : ∀ q, ∀ m ∈ s.messages q, q = s.home m.1
  order : ∀ p, s.accepted p = (s.handed p).map Handed.kmsg ++ (s.queued p ++ flight p)
  seqnos : ∀ p, (s.handed p).map Handed.seqno =
    (List.range (s.handed p).length).map fun n => n % 2 ^ 32
  seqno : ∀ p, s.seqno p = (s.handed p).length % 2 ^ 32
  owners : (s.outstanding.map Prod.fst).Nodup
  outstanding : ∀ t p, (t, p) ∈ s.outstanding ↔ ∃ kmsg seqno, (s.thread t).Carries p kmsg seqno
  carried : ∀ t p kmsg seqno, (s.thread t).Carries p kmsg seqno → ⟨kmsg, seqno, t⟩ ∈ s.handed p
  count : ∀ p, s.msgcount p = (s.queued p).length +
    (s.outstanding.filter fun entry => entry.2 = p).length + (flight p).length

/-! ## What a thread carries -/

variable {thread : Thread P S} {rcv rcv' : Receiver} {k : Kernel}

omit [DecidableEq P] [DecidableEq S] [DecidableEq T] in
theorem not_carries_of_waiting {q : P ⊕ S} (waits : thread.status = .waiting q)
    (p : P) (kmsg : Kmsg) (seqno : ℕ) : ¬ thread.Carries p kmsg seqno := by
  rintro (holds | ⟨woken, -⟩)
  · rw [waits] at holds
    cases holds
  · rw [waits] at woken
    cases woken

omit [DecidableEq P] [DecidableEq S] [DecidableEq T] in
theorem not_carries_of_out (idle : thread.status = .out)
    (p : P) (kmsg : Kmsg) (seqno : ℕ) : ¬ thread.Carries p kmsg seqno := by
  rintro (holds | ⟨woken, -⟩)
  · rw [idle] at holds
    cases holds
  · rw [idle] at woken
    cases woken

omit [DecidableEq P] [DecidableEq S] [DecidableEq T] in
/-- A thread has at most one message. -/
theorem Thread.Carries.unique {p p' : P} {kmsg kmsg' : Kmsg} {seqno seqno' : ℕ}
    (carries : thread.Carries p kmsg seqno) (carries' : thread.Carries p' kmsg' seqno') :
    p = p' ∧ kmsg = kmsg' ∧ seqno = seqno' := by
  rcases carries with holds | ⟨woken, remote, resumes⟩ <;>
    rcases carries' with holds' | ⟨woken', remote', resumes'⟩
  · rw [holds] at holds'
    injection holds' with h₁ h₂ h₃
    exact ⟨h₁, h₂, h₃⟩
  · rw [holds] at woken'
    cases woken'
  · rw [woken] at holds'
    cases holds'
  obtain ⟨code, eq⟩ := resumes .interrupted
  obtain ⟨code', eq'⟩ := resumes' .interrupted
  rw [remote] at remote'
  rw [eq] at eq'
  injection eq' with _ h₂ h₃
  exact ⟨Option.some.inj remote', h₂, h₃⟩

variable (inProgress : rcv.state = machRcvInProgress)

include inProgress

/-- A waiting thread, as its call of `ipc_mqueue_receive` left it. -/
theorem eq_waiting :
    rcv = Ipc.waiting ⟨rcv.rcvOption, rcv.msize, rcv.list⟩ rcv := by
  rw [Ipc.waiting]
  rw [← inProgress]

/-- A thread to which a message was handed picks it up. -/
theorem resumes_of_offer {kmsg : Kmsg} (offered : offer k kmsg rcv = (rcv', true))
    (seqno : ℕ) (why : WaitResult) :
    ∃ code, resumeReceive { rcv' with kmsg := kmsg, seqno := seqno } why =
      .message code kmsg seqno := by
  have allowed := examine_allowed k kmsg ⟨rcv.rcvOption, rcv.msize, rcv.list⟩
  rw [eq_waiting inProgress, offer_eq_examine] at offered
  generalize examine k kmsg ⟨rcv.rcvOption, rcv.msize, rcv.list⟩ = examined at offered allowed
  obtain ⟨examined, list⟩ := examined
  cases examined with
  | dequeue state =>
    obtain ⟨rfl, -⟩ := Prod.mk.inj offered
    rcases allowed with rfl | rfl | ⟨tooSmall, large, old⟩
    · exact ⟨machMsgSuccess, rfl⟩
    · exact ⟨machRcvHeaderError, rfl⟩
    · refine ⟨state, ?_⟩
      rw [resumeReceive_tooSmall tooSmall, if_neg]
      simpa using ⟨large, old⟩
  | reportSize state => cases (Prod.mk.inj offered).2
  | giveUp state => cases (Prod.mk.inj offered).2

/-- A thread that was refused the message does not take one. -/
theorem not_resumes_of_offer {kmsg : Kmsg} (offered : offer k kmsg rcv = (rcv', false))
    (why : WaitResult) (code : MachMsgReturn) (kmsg' : Kmsg) (seqno : ℕ) :
    resumeReceive rcv' why ≠ .message code kmsg' seqno := by
  have allowed := examine_allowed k kmsg ⟨rcv.rcvOption, rcv.msize, rcv.list⟩
  rw [eq_waiting inProgress, offer_eq_examine] at offered
  generalize examine k kmsg ⟨rcv.rcvOption, rcv.msize, rcv.list⟩ = examined at offered allowed
  obtain ⟨examined, list⟩ := examined
  cases examined with
  | dequeue state => cases (Prod.mk.inj offered).2
  | reportSize state =>
    obtain ⟨rfl, -⟩ := Prod.mk.inj offered
    obtain ⟨tooSmall, flags⟩ := allowed
    intro taken
    rw [resumeReceive_tooSmall tooSmall] at taken
    split at taken
    · cases taken
    · exact absurd flags ‹_›
  | giveUp state =>
    obtain ⟨rfl, -⟩ := Prod.mk.inj offered
    rcases allowed with rfl | ⟨rfl, -⟩
    · exact nofun
    · exact nofun

omit inProgress

/-- Nor does a thread that is woken because something happened to its port or set. -/
theorem not_resumes_of_changed
    (changed : rcv.state = machRcvPortDied ∨ rcv.state = machRcvPortChanged) (why : WaitResult)
    (code : MachMsgReturn) (kmsg : Kmsg) (seqno : ℕ) :
    resumeReceive rcv why ≠ .message code kmsg seqno := by
  have returns : resumeReceive rcv why = .code rcv.state := by
    obtain ⟨state, rcvOption, msize, list, kmsg, seqno⟩ := rcv
    rcases changed with rfl | rfl <;> rfl
  rw [returns]
  exact nofun

/-! ## Queues of messages -/

variable {s : Sys P S T} {flight : P → List Kmsg} {p : P} {q : P ⊕ S} {kmsg : Kmsg} {t : T}
  {rest : List T} {more : List Kmsg}

omit [DecidableEq S] [DecidableEq T] in
theorem ofPort_append (p : P) (l l' : List (P × Kmsg)) :
    ofPort p (l ++ l') = ofPort p l ++ ofPort p l' := by
  rw [ofPort, filter_append, map_append, ofPort, ofPort]

omit [DecidableEq S] [DecidableEq T] in
theorem ofPort_cons_self (p : P) (kmsg : Kmsg) (l : List (P × Kmsg)) :
    ofPort p ((p, kmsg) :: l) = kmsg :: ofPort p l := by
  rw [ofPort, filter_cons_of_pos (by simp), map_cons, ofPort]

omit [DecidableEq S] [DecidableEq T] in
theorem ofPort_cons_other {p p' : P} (other : p' ≠ p) (kmsg : Kmsg) (l : List (P × Kmsg)) :
    ofPort p' ((p, kmsg) :: l) = ofPort p' l := by
  rw [ofPort, filter_cons_of_neg (by simpa using other.symm), ofPort]

omit [DecidableEq T] in
/-- A message on its way is put into the queue, if no thread waits there. -/
theorem Inv.enqueue (inv : Inv s flight) (here : q = s.home p) (nobody : s.threads q = [])
    (next : flight p = kmsg :: more) :
    Inv { s with messages := update s.messages q (s.messages q ++ [(p, kmsg)]) }
      (update flight p more) := by
  have queued : ∀ p', queued { s with
      messages := update s.messages q (s.messages q ++ [(p, kmsg)]) } p' =
        if p' = p then s.queued p ++ [kmsg] else s.queued p' := by
    intro p'
    show ofPort p' (update s.messages q _ (s.home p')) = _
    by_cases same : p' = p
    · subst same
      rw [if_pos rfl, ← here, update_self, ofPort_append, ofPort_cons_self, queued, ← here]
      rfl
    · rw [if_neg same, queued]
      by_cases shared : s.home p' = q
      · rw [shared, update_self, ofPort_append, ofPort_cons_other same]
        exact append_nil _
      · rw [update_of_ne shared]
  refine
    { inv with
      exclusive := fun q' => ?_
      home := fun q' m mem => ?_
      order := fun p' => ?_
      count := fun p' => ?_ }
  · by_cases same : q' = q
    · subst same
      exact .inr nobody
    · show update s.messages q _ q' = [] ∨ _
      rw [update_of_ne same]
      exact inv.exclusive q'
  · have inside' : m ∈ update s.messages q (s.messages q ++ [(p, kmsg)]) q' := mem
    show q' = s.home m.1
    by_cases same : q' = q
    · subst same
      rw [update_self] at inside'
      rcases mem_append.mp inside' with old | new
      · exact inv.home q' m old
      · rw [mem_singleton.mp new]
        exact here
    · rw [update_of_ne same] at inside'
      exact inv.home q' m inside'
  · rw [queued]
    by_cases same : p' = p
    · subst same
      rw [if_pos rfl, update_self, inv.order, next]
      simp
    · rw [if_neg same, update_of_ne same]
      exact inv.order p'
  · rw [queued]
    by_cases same : p' = p
    · subst same
      rw [if_pos rfl, update_self, inv.count, next]
      simp
      omega
    · rw [if_neg same, update_of_ne same]
      exact inv.count p'

/-! ## A thread is given a message -/

/-- The part of the invariant that is about what was handed over. -/
structure History (s : Sys P S T) : Prop where
  seqnos : ∀ p, (s.handed p).map Handed.seqno =
    (List.range (s.handed p).length).map fun n => n % 2 ^ 32
  seqno : ∀ p, s.seqno p = (s.handed p).length % 2 ^ 32
  owners : (s.outstanding.map Prod.fst).Nodup
  outstanding : ∀ t p, (t, p) ∈ s.outstanding ↔ ∃ kmsg seqno, (s.thread t).Carries p kmsg seqno
  carried : ∀ t p kmsg seqno, (s.thread t).Carries p kmsg seqno → ⟨kmsg, seqno, t⟩ ∈ s.handed p

omit [DecidableEq S] [DecidableEq T] in
theorem Inv.history (inv : Inv s flight) : History s :=
  ⟨inv.seqnos, inv.seqno, inv.owners, inv.outstanding, inv.carried⟩

omit [DecidableEq S] in
/-- A thread that has no message is given the next one of a port. -/
theorem History.give (history : History s)
    (free : ∀ p kmsg seqno, ¬ (s.thread t).Carries p kmsg seqno)
    (carries : thread.Carries p kmsg (s.seqno p)) : History (s.give t p kmsg thread) where
  seqnos p' := by
    show (update s.handed p _ p').map _ = (List.range (update s.handed p _ p').length).map _
    by_cases same : p' = p
    · subst same
      rw [update_self, map_append, history.seqnos, length_append,
        length_singleton, range_succ, map_append, map_singleton,
        map_singleton, history.seqno]
    · rw [update_of_ne same]
      exact history.seqnos p'
  seqno p' := by
    show update s.seqno p _ p' = (update s.handed p _ p').length % 2 ^ 32
    by_cases same : p' = p
    · subst same
      rw [update_self, update_self, history.seqno, length_append, length_singleton]
      omega
    · rw [update_of_ne same, update_of_ne same]
      exact history.seqno p'
  owners := by
    show ((s.outstanding ++ [(t, p)]).map Prod.fst).Nodup
    rw [map_append, map_singleton, nodup_append]
    refine ⟨history.owners, nodup_singleton t, ?_⟩
    intro u mem v last same
    obtain rfl : v = t := mem_singleton.mp last
    subst same
    obtain ⟨⟨u, p'⟩, listed, rfl⟩ := mem_map.mp mem
    obtain ⟨kmsg', seqno, has⟩ := (history.outstanding u p').mp listed
    exact free p' kmsg' seqno has
  outstanding u p' := by
    show (u, p') ∈ s.outstanding ++ [(t, p)] ↔
      ∃ kmsg' seqno, (update s.thread t thread u).Carries p' kmsg' seqno
    rw [mem_append, mem_singleton, history.outstanding]
    by_cases same : u = t
    · subst same
      rw [update_self]
      constructor
      · rintro (⟨kmsg', seqno, has⟩ | new)
        · exact absurd has (free p' kmsg' seqno)
        · obtain ⟨-, rfl⟩ := Prod.mk.inj new
          exact ⟨kmsg, s.seqno p', carries⟩
      · rintro ⟨kmsg', seqno, has⟩
        rw [(has.unique carries).1]
        exact .inr rfl
    · rw [update_of_ne same, or_iff_left]
      exact fun new => same (Prod.mk.inj new).1
  carried u p' kmsg' seqno has := by
    show _ ∈ update s.handed p _ p'
    have has' : (update s.thread t thread u).Carries p' kmsg' seqno := has
    by_cases same : u = t
    · subst same
      rw [update_self] at has'
      obtain ⟨rfl, rfl, rfl⟩ := has'.unique carries
      rw [update_self]
      exact mem_append_cons_self
    · rw [update_of_ne same] at has'
      have old := history.carried u p' kmsg' seqno has'
      by_cases port : p' = p
      · subst port
        rw [update_self]
        exact mem_append_left _ old
      · rwa [update_of_ne port]

omit [DecidableEq S] in
/-- What is handed over and not yet picked up, after one more. -/
theorem give_outstanding (thread : Thread P S) (p' : P) :
    ((s.give t p kmsg thread).outstanding.filter fun entry => entry.2 = p').length =
      (s.outstanding.filter fun entry => entry.2 = p').length + if p' = p then 1 else 0 := by
  show ((s.outstanding ++ [(t, p)]).filter _).length = _
  rw [filter_append, length_append]
  by_cases same : p' = p
  · subst same
    simp
  · rw [if_neg same, filter_cons_of_neg (by simpa using fun h => same h.symm)]
    rfl

omit [DecidableEq S] in
theorem give_handed (thread : Thread P S) (p' : P) :
    ((s.give t p kmsg thread).handed p').map Handed.kmsg =
      (s.handed p').map Handed.kmsg ++ if p' = p then [kmsg] else [] := by
  show (update s.handed p _ p').map _ = _
  by_cases same : p' = p
  · subst same
    rw [update_self, if_pos rfl, map_append]
    rfl
  · rw [update_of_ne same, if_neg same, append_nil]

/-! ## The wait queue -/

/-- The part of the invariant that is about waiting threads. -/
structure Waits (s : Sys P S T) : Prop where
  distinct : ∀ q, (s.threads q).Nodup
  waiting : ∀ q t, t ∈ s.threads q ↔ (s.thread t).status = .waiting q
  inProgress : ∀ q t, (s.thread t).status = .waiting q → (s.thread t).rcv.state = machRcvInProgress

omit [DecidableEq S] [DecidableEq T] in
theorem Inv.waits (inv : Inv s flight) : Waits s := ⟨inv.distinct, inv.waiting, inv.inProgress⟩

/-- The first thread is taken off a wait queue, and does not wait any more. -/
theorem Waits.dequeue (waits : Waits s) (queue : s.threads q = t :: rest)
    (woken : ∀ q, thread.status ≠ .waiting q) : Waits ((s.dequeue q rest).setThread t thread) := by
  have first := waits.distinct q
  rw [queue, nodup_cons] at first
  have before : (s.thread t).status = .waiting q :=
    (waits.waiting q t).mp (by rw [queue]; exact mem_cons_self)
  constructor
  case distinct =>
    intro q'
    show (update s.threads q rest q').Nodup
    by_cases same : q' = q
    · subst same
      rw [update_self]
      exact first.2
    · rw [update_of_ne same]
      exact waits.distinct q'
  case waiting =>
    intro q' u
    show u ∈ update s.threads q rest q' ↔ (update s.thread t thread u).status = .waiting q'
    by_cases same : u = t
    · subst same
      rw [update_self, iff_false_right (woken q')]
      by_cases here : q' = q
      · subst here
        rw [update_self]
        exact first.1
      rw [update_of_ne here, waits.waiting, before]
      intro other
      injection other with eq
      exact here eq.symm
    · rw [update_of_ne same]
      by_cases here : q' = q
      · subst here
        rw [update_self, ← waits.waiting, queue, mem_cons, or_iff_right same]
      · rw [update_of_ne here]
        exact waits.waiting q' u
  case inProgress =>
    intro q' u
    show (update s.thread t thread u).status = .waiting q' →
      (update s.thread t thread u).rcv.state = _
    by_cases same : u = t
    · subst same
      rw [update_self]
      exact fun still => absurd still (woken q')
    · rw [update_of_ne same]
      exact waits.inProgress q' u

/-- A thread of the wait queue gets a message that is on its way. -/
theorem Inv.hand (inv : Inv s flight) (here : q = s.home p) (queue : s.threads q = t :: rest)
    (next : flight p = kmsg :: more) (woken : thread.status = .woken)
    (carries : thread.Carries p kmsg (s.seqno p)) :
    Inv ((s.dequeue q rest).give t p kmsg thread) (update flight p more) := by
  have before : (s.thread t).status = .waiting q :=
    (inv.waiting q t).mp (by rw [queue]; exact mem_cons_self)
  have history : History ((s.dequeue q rest).give t p kmsg thread) := by
    have dequeued : History (s.dequeue q rest) :=
      ⟨inv.seqnos, inv.seqno, inv.owners, inv.outstanding, inv.carried⟩
    exact dequeued.give (not_carries_of_waiting before) carries
  have waits : Waits ((s.dequeue q rest).setThread t thread) :=
    inv.waits.dequeue queue fun q' waits => nomatch woken.symm.trans waits
  -- nothing is queued where a thread waited
  have empty : s.messages q = [] := by
    rcases inv.exclusive q with none | nobody
    · exact none
    · rw [queue] at nobody
      cases nobody
  have queued : s.queued p = [] := by
    rw [queued, ← here, empty]
    rfl
  refine ⟨fun q' => ?_, waits.distinct, waits.waiting, waits.inProgress, inv.home, fun p' => ?_,
    history.seqnos, history.seqno, history.owners, history.outstanding, history.carried,
    fun p' => ?_⟩
  · show s.messages q' = [] ∨ update s.threads q rest q' = []
    by_cases same : q' = q
    · subst same
      exact .inl empty
    · rw [update_of_ne same]
      exact inv.exclusive q'
  · rw [give_handed]
    show s.accepted p' = (s.handed p').map Handed.kmsg ++ _ ++ (s.queued p' ++ _)
    by_cases same : p' = p
    · subst same
      rw [if_pos rfl, update_self, inv.order, queued, next]
      simp
    · rw [if_neg same, update_of_ne same, append_nil]
      exact inv.order p'
  · rw [give_outstanding]
    show s.msgcount p' = (s.queued p').length + ((s.outstanding.filter _).length + _) + _
    by_cases same : p' = p
    · subst same
      rw [if_pos rfl, update_self, inv.count, next, length_cons]
      omega
    · rw [if_neg same, update_of_ne same]
      exact inv.count p'

omit [DecidableEq P] [DecidableEq S] in
/-- A thread changes, but not the message that it has. -/
theorem History.setThread (history : History s)
    (same : ∀ p kmsg seqno, thread.Carries p kmsg seqno ↔ (s.thread t).Carries p kmsg seqno) :
    History (s.setThread t thread) := by
  have carries : ∀ u p kmsg seqno, (update s.thread t thread u).Carries p kmsg seqno ↔
      (s.thread u).Carries p kmsg seqno := by
    intro u p kmsg seqno
    by_cases here : u = t
    · subst here
      rw [update_self]
      exact same p kmsg seqno
    · rw [update_of_ne here]
  refine ⟨history.seqnos, history.seqno, history.owners, fun u p => ?_, fun u p kmsg seqno has => ?_⟩
  · show _ ↔ ∃ kmsg seqno, (update s.thread t thread u).Carries p kmsg seqno
    simp only [carries]
    exact history.outstanding u p
  · exact history.carried u p kmsg seqno ((carries u p kmsg seqno).mp has)

/-- A thread of the wait queue is refused the message. -/
theorem Inv.refuse (inv : Inv s flight) (queue : s.threads q = t :: rest)
    (woken : thread.status = .woken)
    (free : ∀ p kmsg seqno, ¬ thread.Carries p kmsg seqno) :
    Inv ((s.dequeue q rest).setThread t thread) flight := by
  have before : (s.thread t).status = .waiting q :=
    (inv.waiting q t).mp (by rw [queue]; exact mem_cons_self)
  have history : History ((s.dequeue q rest).setThread t thread) := by
    have dequeued : History (s.dequeue q rest) :=
      ⟨inv.seqnos, inv.seqno, inv.owners, inv.outstanding, inv.carried⟩
    refine dequeued.setThread fun p kmsg seqno => ?_
    exact iff_of_false (free p kmsg seqno) (not_carries_of_waiting before p kmsg seqno)
  have waits : Waits ((s.dequeue q rest).setThread t thread) :=
    inv.waits.dequeue queue fun q' waits => nomatch woken.symm.trans waits
  refine ⟨fun q' => ?_, waits.distinct, waits.waiting, waits.inProgress, inv.home, inv.order,
    history.seqnos, history.seqno, history.owners, history.outstanding, history.carried, inv.count⟩
  show s.messages q' = [] ∨ update s.threads q rest q' = []
  by_cases same : q' = q
  · subst same
    rcases inv.exclusive q' with none | nobody
    · exact .inl none
    · rw [queue] at nobody
      cases nobody
  · rw [update_of_ne same]
    exact inv.exclusive q'

/-! ## Delivery -/

/-- The loop over the waiting threads: the message on its way is handed to one of them, or put into
the queue. -/
theorem offerAll_inv (k : Kernel) (inv : Inv s flight) (here : q = s.home p) {l : List T}
    (queue : s.threads q = l) (next : flight p = kmsg :: more) :
    Inv (offerAll k q p kmsg l s) (update flight p more) := by
  induction l generalizing s with
  | nil => exact inv.enqueue here queue next
  | cons t rest ih =>
    have inProgress : (s.thread t).rcv.state = machRcvInProgress :=
      inv.inProgress q t ((inv.waiting q t).mp (by rw [queue]; exact mem_cons_self))
    rw [offerAll]
    cases offered : offer k kmsg (s.thread t).rcv with
    | mk rcv taken =>
      cases taken with
      | true =>
        refine inv.hand here queue next rfl (.inr ⟨rfl, rfl, fun why => ?_⟩)
        exact resumes_of_offer inProgress offered (s.seqno p) why
      | false =>
        have refused : Inv ((s.dequeue q rest).setThread t
            { s.thread t with rcv := rcv, status := .woken }) flight := by
          refine inv.refuse queue rfl ?_
          rintro p' kmsg' seqno (holds | ⟨-, -, resumes⟩)
          · cases holds
          · obtain ⟨code, resumes⟩ := resumes .interrupted
            exact not_resumes_of_offer inProgress offered .interrupted code kmsg' seqno resumes
        exact ih refused here (update_self ..)

omit [DecidableEq P] [DecidableEq S] [DecidableEq T] in
theorem home_congr {s s' : Sys P S T} (pset : s'.pset = s.pset) (p : P) : s'.home p = s.home p := by
  rw [home, home, pset]

/-- A delivery does not change the sets. -/
theorem offerAll_pset (k : Kernel) (l : List T) (s : Sys P S T) :
    (offerAll k q p kmsg l s).pset = s.pset := by
  induction l generalizing s with
  | nil => rfl
  | cons t rest ih =>
    rw [offerAll]
    split
    · rfl
    · exact ih _

theorem deliverAll_pset (k : Kernel) (l : List Kmsg) (s : Sys P S T) :
    (l.foldl (fun s kmsg => s.deliver k q p kmsg) s).pset = s.pset := by
  induction l generalizing s with
  | nil => rfl
  | cons kmsg l ih => exact (ih _).trans (offerAll_pset k _ s)

/-- All messages of a port that are on their way are delivered in order. -/
theorem deliverAll_inv (k : Kernel) {l : List Kmsg} (inv : Inv s flight) (here : q = s.home p)
    (next : flight p = l) :
    Inv (l.foldl (fun s kmsg => s.deliver k q p kmsg) s) (update flight p []) := by
  induction l generalizing s flight with
  | nil =>
    have same : update flight p [] = flight := by rw [← next, Function.update_eq_self]
    rw [same]
    exact inv
  | cons kmsg more ih =>
    have delivered := offerAll_inv k inv here rfl next
    have home : q = (s.deliver k q p kmsg).home p :=
      here.trans (home_congr (offerAll_pset k (s.threads q) s) p).symm
    have rest := ih delivered home (update_self ..)
    rwa [update_idem] at rest

/-! ## The operations -/

/-- Nothing is on its way. -/
def Sys.Settled (s : Sys P S T) : Prop := Inv s fun _ => []

omit [DecidableEq S] [DecidableEq T] in
theorem settled_of_update {p : P} (inv : Inv s (update (fun _ => []) p [])) : s.Settled := by
  have same : update (fun _ : P => ([] : List Kmsg)) p [] = fun _ => [] :=
    Function.update_eq_self p _
  rwa [same] at inv

theorem Sys.Settled.send (settled : s.Settled) (k : Kernel) (p : P) (kmsg : Kmsg) :
    (s.send k p kmsg).Settled := by
  have accepted : Inv { s with
      msgcount := update s.msgcount p (s.msgcount p + 1)
      accepted := update s.accepted p (s.accepted p ++ [kmsg]) }
      (update (fun _ => []) p [kmsg]) := by
    refine { settled with order := fun p' => ?_, count := fun p' => ?_ }
    · show update s.accepted p _ p' = _ ++ (s.queued p' ++ _)
      by_cases same : p' = p
      · subst same
        rw [update_self, update_self, settled.order p', append_nil, append_assoc]
      · rw [update_of_ne same, update_of_ne same]
        exact settled.order p'
    · show update s.msgcount p _ p' = (s.queued p').length + _ + _
      by_cases same : p' = p
      · subst same
        rw [update_self, update_self, settled.count p']
        rfl
      · rw [update_of_ne same, update_of_ne same]
        exact settled.count p'
  have delivered := offerAll_inv k accepted (q := s.home p) rfl rfl (update_self ..)
  rw [update_idem] at delivered
  exact settled_of_update delivered

/-- Other ports do not notice that the messages of a port are taken out of a queue. -/
theorem ofPort_filter {p p' : P} (other : p' ≠ p) (l : List (P × Kmsg)) :
    ofPort p' (l.filter fun m => m.1 ≠ p) = ofPort p' l := by
  rw [ofPort, ofPort, filter_filter]
  congr 1
  refine filter_congr fun m _ => ?_
  by_cases same : m.1 = p'
  · simp [same, other]
  · simp [same]

/-- A port changes its set: its messages are taken out of the old queue, and go to the new one. -/
theorem Sys.Settled.move (settled : s.Settled) (k : Kernel) {p : P} {pset : Option S}
    {source dest : P ⊕ S} (old : source = s.home p)
    (new : dest = home { s with pset := update s.pset p pset } p)
    (other : dest ≠ source) :
    (move { s with pset := update s.pset p pset } k dest source p).Settled := by
  let detached : Sys P S T := { s with
    pset := update s.pset p pset
    messages := update s.messages source ((s.messages source).filter fun m => m.1 ≠ p) }
  have home : ∀ p', p' ≠ p → detached.home p' = s.home p' := by
    intro p' ne
    have same : detached.pset p' = s.pset p' := update_of_ne ne ..
    rw [Sys.home, Sys.home, same]
  have queued : ∀ p', detached.queued p' = if p' = p then [] else s.queued p' := by
    intro p'
    show ofPort p' (update s.messages source _ (detached.home p')) = _
    by_cases same : p' = p
    · subst same
      -- the new queue has no messages of the port
      have none : ofPort p' (s.messages dest) = [] := by
        rw [ofPort, map_eq_nil_iff, filter_eq_nil_iff]
        intro m mem
        have := settled.home dest m mem
        simp only [decide_eq_true_eq]
        rintro rfl
        exact other (this.trans old.symm)
      rw [if_pos rfl, show detached.home p' = dest from new.symm, update_of_ne other, none]
    · rw [if_neg same, home p' same, queued]
      by_cases here : s.home p' = source
      · rw [here, update_self, ofPort_filter same]
      · rw [update_of_ne here]
  have inv : Inv detached
      (update (fun _ => []) p (ofPort p (s.messages source))) := by
    refine
      { settled with
        exclusive := fun q' => ?_
        home := fun q' m mem => ?_
        order := fun p' => ?_
        count := fun p' => ?_ }
    · show update s.messages source _ q' = [] ∨ _
      by_cases same : q' = source
      · subst same
        rw [update_self]
        rcases settled.exclusive q' with none | nobody
        · rw [none]
          exact .inl rfl
        · exact .inr nobody
      · rw [update_of_ne same]
        exact settled.exclusive q'
    · have inside' : m ∈ update s.messages source
        ((s.messages source).filter fun m => m.1 ≠ p) q' := mem
      by_cases same : q' = source
      · subst same
        rw [update_self, mem_filter] at inside'
        rw [home m.1 (by simpa using inside'.2)]
        exact settled.home q' m inside'.1
      · rw [update_of_ne same] at inside'
        have at_ := settled.home q' m inside'
        rw [home m.1 fun eq => same (at_.trans (by rw [eq, old]))]
        exact at_
    · rw [queued]
      show s.accepted p' = (s.handed p').map _ ++ _
      by_cases same : p' = p
      · subst same
        rw [if_pos rfl, update_self, settled.order p', Sys.queued, ← old, nil_append, append_nil]
      · rw [if_neg same, update_of_ne same]
        exact settled.order p'
    · rw [queued]
      show s.msgcount p' = _ + (s.outstanding.filter _).length + _
      by_cases same : p' = p
      · subst same
        rw [if_pos rfl, update_self, settled.count p', Sys.queued, ← old, length_nil]
        omega
      · rw [if_neg same, update_of_ne same]
        exact settled.count p'
  have moved := deliverAll_inv k inv new (update_self ..)
  rw [update_idem] at moved
  exact settled_of_update moved

end Darwin.Ipc.Delivery
