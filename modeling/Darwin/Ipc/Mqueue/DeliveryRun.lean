import Darwin.Ipc.Mqueue.DeliveryInvariant

/-!
# Any interleaving of sends, receives and changes of port sets

Every step of the system keeps the invariant of the queues, so it holds in every state that can be
reached.

## Main results

* `messages_delivered` - where messages are, how they are counted and in which order they are handed
  over, in every reachable state
-/

namespace Darwin.Ipc.Delivery

open List Sys
open Function (update update_of_ne update_self)

variable {P S T : Type*} [DecidableEq P] [DecidableEq S] [DecidableEq T]

variable {s s' : Sys P S T} {p : P} {q : P ⊕ S} {t : T}

/-! ## Port sets -/

variable {code : MachMsgReturn} {thread : Thread P S} {kmsg : Kmsg} {why : WaitResult}

theorem Sys.Settled.changed (settled : s.Settled) (q : P ⊕ S)
    (bad : code = machRcvPortDied ∨ code = machRcvPortChanged) : (s.changed q code).Settled := by
  have carries : ∀ u p kmsg seqno, ((s.changed q code).thread u).Carries p kmsg seqno ↔
      (s.thread u).Carries p kmsg seqno := by
    intro u p kmsg seqno
    show (if u ∈ s.threads q then _ else s.thread u).Carries p kmsg seqno ↔ _
    split_ifs with waits
    · refine iff_of_false ?_ (not_carries_of_waiting ((settled.waiting q u).mp waits) p kmsg seqno)
      rintro (holds | ⟨-, -, resumes⟩)
      · cases holds
      · obtain ⟨code', resumes⟩ := resumes .interrupted
        exact not_resumes_of_changed bad .interrupted code' kmsg seqno resumes
    · exact Iff.rfl
  refine
    { settled with
      exclusive := fun q' => ?_
      distinct := fun q' => ?_
      waiting := fun q' u => ?_
      inProgress := fun q' u => ?_
      outstanding := fun u p' => ?_
      carried := fun u p' kmsg seqno has => ?_ }
  · show _ ∨ update s.threads q [] q' = []
    by_cases same : q' = q
    · subst same
      rw [update_self]
      exact .inr rfl
    · rw [update_of_ne same]
      exact settled.exclusive q'
  · show (update s.threads q [] q').Nodup
    by_cases same : q' = q
    · subst same
      rw [update_self]
      exact nodup_nil
    · rw [update_of_ne same]
      exact settled.distinct q'
  · show u ∈ update s.threads q [] q' ↔
      (if u ∈ s.threads q then _ else s.thread u).status = .waiting q'
    by_cases waits : u ∈ s.threads q
    · rw [if_pos waits]
      refine iff_of_false ?_ nofun
      by_cases same : q' = q
      · subst same
        rw [update_self]
        exact not_mem_nil
      rw [update_of_ne same, settled.waiting, (settled.waiting q u).mp waits]
      intro other
      injection other with eq
      exact same eq.symm
    · rw [if_neg waits]
      by_cases same : q' = q
      · subst same
        rw [update_self, ← settled.waiting]
        exact iff_of_false not_mem_nil waits
      · rw [update_of_ne same]
        exact settled.waiting q' u
  · show (if u ∈ s.threads q then _ else s.thread u).status = .waiting q' →
      (if u ∈ s.threads q then _ else s.thread u).rcv.state = _
    split_ifs with waits
    · exact nofun
    · exact settled.inProgress q' u
  · simp only [carries]
    exact settled.outstanding u p'
  · exact settled.carried u p' kmsg seqno ((carries u p' kmsg seqno).mp has)

theorem Sys.Settled.psetAdd (settled : s.Settled) (k : Kernel) (set : S) (p : P)
    (free : s.pset p = none) : (s.psetAdd k set p).Settled := by
  have old : Sum.inl p = s.home p := by rw [home, free]
  have new : Sum.inr set = home { s with pset := update s.pset p (some set) } p := by
    rw [home]
    simp only [update_self]
  exact (settled.move k old new Sum.inr_ne_inl).changed (.inl p) (.inr rfl)

theorem Sys.Settled.psetRemove (settled : s.Settled) (k : Kernel) (set : S) (p : P)
    (member : s.pset p = some set) : (s.psetRemove k set p).Settled := by
  have old : Sum.inr set = s.home p := by rw [home, member]
  have new : Sum.inl p = home { s with pset := update s.pset p none } p := by
    rw [home]
    simp only [update_self]
  exact settled.move k old new Sum.inl_ne_inr

theorem psetRemove_pset (k : Kernel) (set : S) (p : P) : (s.psetRemove k set p).pset p = none := by
  rw [psetRemove, move, deliverAll_pset]
  exact update_self ..

theorem Sys.Settled.psetMove (settled : s.Settled) (k : Kernel) (p : P) (nset : Option S) :
    (s.psetMove k p nset).Settled := by
  rw [psetMove.eq_def]
  split_ifs with same
  · exact settled
  cases old : s.pset p with
  | none =>
    cases nset with
    | none => exact settled
    | some nset => exact settled.psetAdd k nset p old
  | some oset =>
    cases nset with
    | none => exact settled.psetRemove k oset p old
    | some nset =>
      exact (settled.psetRemove k oset p old).psetAdd k nset p (psetRemove_pset k oset p)

theorem Sys.Settled.psetDestroy (settled : s.Settled) (set : S) : (s.psetDestroy set).Settled := by
  have dead : Settled { s with setActive := update s.setActive set false } :=
    { settled with }
  exact dead.changed (.inr set) (.inl rfl)

/-! ## Receives -/

omit [DecidableEq S] in
/-- A thread that has no message and does not wait changes, and still has none and does not wait. -/
theorem Sys.Settled.setThread (settled : s.Settled)
    (before : ∀ q, (s.thread t).status ≠ .waiting q) (after : ∀ q, thread.status ≠ .waiting q)
    (same : ∀ p kmsg seqno, thread.Carries p kmsg seqno ↔ (s.thread t).Carries p kmsg seqno) :
    (s.setThread t thread).Settled := by
  have history := settled.history.setThread same
  refine { settled with
    waiting := fun q u => ?_
    inProgress := fun q u => ?_
    seqnos := history.seqnos
    seqno := history.seqno
    owners := history.owners
    outstanding := history.outstanding
    carried := history.carried }
  · show _ ↔ (update s.thread t thread u).status = .waiting q
    by_cases here : u = t
    · subst here
      rw [update_self]
      exact iff_of_false (fun mem => before q ((settled.waiting q u).mp mem)) (after q)
    · rw [update_of_ne here]
      exact settled.waiting q u
  · show (update s.thread t thread u).status = .waiting q →
      (update s.thread t thread u).rcv.state = _
    by_cases here : u = t
    · subst here
      rw [update_self]
      exact fun waits => absurd waits (after q)
    · rw [update_of_ne here]
      exact settled.inProgress q u

/-- A thread outside of a receive takes the first message of a queue. -/
theorem Sys.Settled.take (settled : s.Settled) {rest : List (P × Kmsg)}
    (queue : s.messages q = (p, kmsg) :: rest) (idle : (s.thread t).status = .out) :
    (give { s with messages := update s.messages q rest } t p kmsg
      { s.thread t with status := .holding p kmsg (s.seqno p) }).Settled := by
  have here : q = s.home p := settled.home q (p, kmsg) (by rw [queue]; exact mem_cons_self)
  have history : History (give { s with messages := update s.messages q rest } t p kmsg
      { s.thread t with status := .holding p kmsg (s.seqno p) }) := by
    have before : History { s with messages := update s.messages q rest } :=
      ⟨settled.seqnos, settled.seqno, settled.owners, settled.outstanding, settled.carried⟩
    exact before.give (not_carries_of_out idle) (.inl rfl)
  have queued : ∀ p', queued { s with messages := update s.messages q rest } p' =
      if p' = p then ofPort p rest else s.queued p' := by
    intro p'
    show ofPort p' (update s.messages q rest (s.home p')) = _
    by_cases same : p' = p
    · subst same
      rw [if_pos rfl, ← here, update_self]
    rw [if_neg same, queued]
    by_cases shared : s.home p' = q
    · rw [shared, update_self, queue, ofPort_cons_other same]
    · rw [update_of_ne shared]
  have first : s.queued p = kmsg :: Sys.ofPort p rest := by
    rw [Sys.queued, ← here, queue, ofPort_cons_self]
  refine ⟨fun q' => ?_, settled.distinct, fun q' u => ?_, fun q' u => ?_, fun q' m mem => ?_,
    fun p' => ?_, history.seqnos, history.seqno, history.owners, history.outstanding,
    history.carried, fun p' => ?_⟩
  · show update s.messages q rest q' = [] ∨ s.threads q' = []
    by_cases same : q' = q
    · subst same
      rcases settled.exclusive q' with none | nobody
      · rw [queue] at none
        cases none
      · exact .inr nobody
    · rw [update_of_ne same]
      exact settled.exclusive q'
  · show u ∈ s.threads q' ↔ (update s.thread t _ u).status = .waiting q'
    by_cases same : u = t
    · subst same
      rw [update_self, settled.waiting, idle]
      exact iff_of_false (by rintro ⟨⟩) (by rintro ⟨⟩)
    · rw [update_of_ne same]
      exact settled.waiting q' u
  · show (update s.thread t _ u).status = .waiting q' → (update s.thread t _ u).rcv.state = _
    by_cases same : u = t
    · subst same
      rw [update_self]
      rintro ⟨⟩
    · rw [update_of_ne same]
      exact settled.inProgress q' u
  · have inside' : m ∈ update s.messages q rest q' := mem
    show q' = s.home m.1
    by_cases same : q' = q
    · subst same
      rw [update_self] at inside'
      exact settled.home q' m (by rw [queue]; exact mem_cons_of_mem _ inside')
    · rw [update_of_ne same] at inside'
      exact settled.home q' m inside'
  · rw [give_handed]
    show s.accepted p' = (s.handed p').map _ ++ _ ++
      (Sys.queued { s with messages := update s.messages q rest } p' ++ [])
    rw [queued]
    by_cases same : p' = p
    · subst same
      rw [if_pos rfl, if_pos rfl, settled.order p', first]
      simp
    · rw [if_neg same, if_neg same, append_nil]
      exact settled.order p'
  · rw [give_outstanding]
    show s.msgcount p' = (Sys.queued { s with
      messages := update s.messages q rest } p').length + ((s.outstanding.filter _).length + _) + _
    rw [queued]
    by_cases same : p' = p
    · subst same
      rw [if_pos rfl, if_pos rfl, settled.count p', first, length_cons]
      omega
    · rw [if_neg same, if_neg same]
      exact settled.count p'

/-- A thread outside of a receive goes to sleep at a queue without messages. -/
theorem Sys.Settled.block (settled : s.Settled) (empty : s.messages q = [])
    (idle : (s.thread t).status = .out) (waits : thread.status = .waiting q)
    (inProgress : thread.rcv.state = machRcvInProgress) :
    (Sys.setThread { s with threads := update s.threads q (s.threads q ++ [t]) } t
      thread).Settled := by
  have absent : ∀ q', t ∉ s.threads q' := by
    intro q' mem
    have waits' := (settled.waiting q' t).mp mem
    rw [idle] at waits'
    cases waits'
  have history : History (s.setThread t thread) := by
    refine settled.history.setThread fun p kmsg seqno => ?_
    exact iff_of_false (not_carries_of_waiting waits p kmsg seqno)
      (not_carries_of_out idle p kmsg seqno)
  refine
    { settled with
      exclusive := fun q' => ?_
      distinct := fun q' => ?_
      waiting := fun q' u => ?_
      inProgress := fun q' u => ?_
      outstanding := history.outstanding
      carried := history.carried }
  · show s.messages q' = [] ∨ update s.threads q _ q' = []
    by_cases same : q' = q
    · subst same
      exact .inl empty
    · rw [update_of_ne same]
      exact settled.exclusive q'
  · show (update s.threads q _ q').Nodup
    by_cases same : q' = q
    · subst same
      rw [update_self, ← concat_eq_append]
      exact (settled.distinct q').concat (absent q')
    · rw [update_of_ne same]
      exact settled.distinct q'
  · show u ∈ update s.threads q _ q' ↔ (update s.thread t thread u).status = .waiting q'
    by_cases here : u = t
    · subst here
      rw [update_self, waits]
      by_cases same : q' = q
      · subst same
        rw [update_self]
        exact iff_of_true (mem_append_cons_self) rfl
      rw [update_of_ne same]
      refine iff_of_false (absent q') fun eq => ?_
      injection eq with eq
      exact same eq.symm
    · rw [update_of_ne here, ← settled.waiting]
      by_cases same : q' = q
      · subst same
        rw [update_self, mem_append, mem_singleton, or_iff_left here]
      · rw [update_of_ne same]
  · show (update s.thread t thread u).status = .waiting q' →
      (update s.thread t thread u).rcv.state = _
    by_cases here : u = t
    · subst here
      rw [update_self]
      exact fun _ => inProgress
    · rw [update_of_ne here]
      exact settled.inProgress q' u

theorem Sys.Settled.receive (settled : s.Settled) (k : Kernel) (q : P ⊕ S) (call : ReceiveCall)
    (poll : Bool) (idle : (s.thread t).status = .out) : (s.receive k t q call poll).Settled := by
  have returns : (s.setThread t { s.thread t with status := .out }).Settled := by
    refine settled.setThread (fun q waits => ?_) (fun _ => nofun) fun p kmsg seqno => ?_
    · rw [idle] at waits
      cases waits
    · exact iff_of_false (not_carries_of_out rfl p kmsg seqno) (not_carries_of_out idle p kmsg seqno)
  rw [receive.eq_def]
  cases queue : s.messages q with
  | nil =>
    cases poll with
    | true => exact returns
    | false => exact settled.block queue idle rfl rfl
  | cons first rest =>
    obtain ⟨p, kmsg⟩ := first
    dsimp only
    split
    · exact settled.take queue idle
    · exact returns
    · exact returns

/-- A thread that does not wait at a queue is not touched by a delivery there. -/
theorem offerAll_away (k : Kernel) {l : List T} {s : Sys P S T}
    (queue : s.threads q = l) (away : t ∉ l) :
    (offerAll k q p kmsg l s).thread t = s.thread t ∧
      t ∉ (offerAll k q p kmsg l s).threads q := by
  induction l generalizing s with
  | nil =>
    refine ⟨rfl, ?_⟩
    show t ∉ s.threads q
    rwa [queue]
  | cons u rest ih =>
    rw [mem_cons, not_or] at away
    obtain ⟨other, away⟩ := away
    have dequeued : update s.threads q rest q = rest := update_self ..
    rw [offerAll]
    cases offer k kmsg (s.thread u).rcv with
    | mk rcv taken =>
      cases taken with
      | true =>
        refine ⟨update_of_ne other .., ?_⟩
        show t ∉ update s.threads q rest q
        rwa [dequeued]
      | false =>
        obtain ⟨unchanged, away'⟩ := ih (s := (s.dequeue q rest).setThread u
          { s.thread u with rcv := rcv, status := .woken }) dequeued away
        exact ⟨unchanged.trans (update_of_ne other ..), away'⟩

theorem deliverAll_away (k : Kernel) (l : List Kmsg) {s : Sys P S T} (away : t ∉ s.threads q) :
    (l.foldl (fun s kmsg => s.deliver k q p kmsg) s).thread t = s.thread t := by
  induction l generalizing s with
  | nil => rfl
  | cons kmsg l ih =>
    obtain ⟨unchanged, away'⟩ : (s.deliver k q p kmsg).thread t = s.thread t ∧
        t ∉ (s.deliver k q p kmsg).threads q := offerAll_away k rfl away
    exact (ih away').trans unchanged

theorem Sys.Settled.copyinPort (settled : s.Settled) {k : Kernel}
    (copyin : s.copyinPort k p = some s') (idle : (s.thread t).status = .out) :
    s'.Settled ∧ (s'.thread t).status = .out := by
  have away : ∀ q, t ∉ s.threads q := by
    intro q mem
    have waits := (settled.waiting q t).mp mem
    rw [idle] at waits
    cases waits
  rw [copyinPort.eq_def] at copyin
  cases member : s.pset p with
  | none =>
    rw [member] at copyin
    cases copyin
    exact ⟨settled, idle⟩
  | some set =>
    rw [member] at copyin
    dsimp only at copyin
    split_ifs at copyin
    cases copyin
    refine ⟨settled.psetRemove k set p member, ?_⟩
    have unchanged : (s.psetRemove k set p).thread t = s.thread t := by
      rw [Sys.psetRemove, Sys.move]
      exact deliverAll_away k _ (away (.inl p))
    rw [unchanged]
    exact idle

/-- Whether a thread has been handed a message does not depend on why it runs. -/
theorem resumeReceive_message {rcv : Receiver}
    {seqno : ℕ} (resumes : resumeReceive rcv why = .message code kmsg seqno) (why' : WaitResult) :
    resumeReceive rcv why' = .message code kmsg seqno := by
  by_cases inProgress : rcv.state = machRcvInProgress
  · -- nobody handed a message to a thread that is still in progress
    have returns : ∀ code kmsg seqno, resumeReceive rcv why ≠ .message code kmsg seqno := by
      obtain ⟨state, rcvOption, msize, list, kmsg, seqno⟩ := rcv
      obtain rfl : state = machRcvInProgress := inProgress
      cases why <;> exact nofun
    exact absurd resumes (returns code kmsg seqno)
  · rw [← resumes]
    simp only [resumeReceive, if_neg inProgress]

omit [DecidableEq S] in
theorem Sys.Settled.resume (settled : s.Settled)
    (woken : (s.thread t).status = .woken) (resumed : s.resume t why = some s') : s'.Settled := by
  have before : ∀ q, (s.thread t).status ≠ .waiting q := by
    intro q waits
    rw [woken] at waits
    cases waits
  have returns (nothing : ∀ code kmsg seqno,
      resumeReceive (s.thread t).rcv why ≠ .message code kmsg seqno) :
      (s.setThread t { s.thread t with status := .out }).Settled := by
    refine settled.setThread before (fun _ => nofun) fun p kmsg seqno => ?_
    refine iff_of_false (not_carries_of_out rfl p kmsg seqno) ?_
    rintro (holds | ⟨-, -, resumes⟩)
    · rw [woken] at holds
      cases holds
    · obtain ⟨code, resumes⟩ := resumes why
      exact nothing code kmsg seqno resumes
  rw [resume.eq_def] at resumed
  cases result : resumeReceive (s.thread t).rcv why with
  | message code kmsg seqno =>
    rw [result] at resumed
    obtain ⟨p, remote, rfl⟩ := Option.map_eq_some_iff.mp resumed
    have carried : (s.thread t).Carries p kmsg seqno :=
      .inr ⟨woken, remote, fun why' => ⟨code, resumeReceive_message result why'⟩⟩
    refine settled.setThread before (fun _ => nofun) fun p' kmsg' seqno' => ⟨fun has => ?_, fun has => ?_⟩
    · rcases has with holds | ⟨still, -⟩
      · injection holds with h₁ h₂ h₃
        subst h₁ h₂ h₃
        exact carried
      · cases still
    · obtain ⟨rfl, rfl, rfl⟩ := carried.unique has
      exact .inl rfl
  | size code msize =>
    rw [result] at resumed
    cases resumed
    exact returns fun _ _ _ eq => nomatch result.symm.trans eq
  | code code =>
    rw [result] at resumed
    cases resumed
    exact returns fun _ _ _ eq => nomatch result.symm.trans eq
  | retry =>
    rw [result] at resumed
    cases resumed
  | panic =>
    rw [result] at resumed
    cases resumed

/-- A waiting thread takes itself off the wait queue. -/
theorem Sys.Settled.leave (settled : s.Settled) (waits : (s.thread t).status = .waiting q) :
    (Sys.setThread { s with threads := update s.threads q ((s.threads q).filter fun u => u ≠ t) } t
        { s.thread t with status := .out }).Settled := by
  have history : History (s.setThread t { s.thread t with status := .out }) := by
    refine settled.history.setThread fun p kmsg seqno => ?_
    exact iff_of_false (not_carries_of_out rfl p kmsg seqno)
      (not_carries_of_waiting waits p kmsg seqno)
  refine
    { settled with
      exclusive := fun q' => ?_
      distinct := fun q' => ?_
      waiting := fun q' u => ?_
      inProgress := fun q' u => ?_
      outstanding := history.outstanding
      carried := history.carried }
  · show s.messages q' = [] ∨ update s.threads q _ q' = []
    by_cases same : q' = q
    · subst same
      rcases settled.exclusive q' with none | nobody
      · exact .inl none
      · rw [update_self, nobody]
        exact .inr rfl
    · rw [update_of_ne same]
      exact settled.exclusive q'
  · show (update s.threads q _ q').Nodup
    by_cases same : q' = q
    · subst same
      rw [update_self]
      exact (settled.distinct q').filter _
    · rw [update_of_ne same]
      exact settled.distinct q'
  · show u ∈ update s.threads q _ q' ↔ (update s.thread t _ u).status = .waiting q'
    by_cases here : u = t
    · subst here
      rw [update_self]
      refine iff_of_false ?_ nofun
      by_cases same : q' = q
      · subst same
        rw [update_self]
        simp
      rw [update_of_ne same, settled.waiting, waits]
      intro eq
      injection eq with eq
      exact same eq.symm
    · rw [update_of_ne here, ← settled.waiting]
      by_cases same : q' = q
      · subst same
        rw [update_self, mem_filter, and_iff_left (by simpa using here)]
      · rw [update_of_ne same]
  · show (update s.thread t _ u).status = .waiting q' → (update s.thread t _ u).rcv.state = _
    by_cases here : u = t
    · subst here
      rw [update_self]
      exact nofun
    · rw [update_of_ne here]
      exact settled.inProgress q' u

theorem Sys.Settled.giveUp (settled : s.Settled) (k : Kernel) (why : WaitResult)
    (waits : (s.thread t).status = .waiting q) : (s.giveUp k t q why).Settled := by
  cases why with
  | interrupted => exact settled.leave waits
  | timedOut =>
    -- the poll finds no message, since a thread has been waiting
    have empty : s.messages q = [] := by
      rcases settled.exclusive q with none | nobody
      · exact none
      · have mem := (settled.waiting q t).mpr waits
        rw [nobody] at mem
        cases mem
    rw [Sys.giveUp]
    rw [receive.eq_def]
    rw [empty]
    exact settled.leave waits

/-- The entry of a thread is taken out of the outstanding ones. -/
theorem outstanding_filter {l : List (T × P)} (owners : (l.map Prod.fst).Nodup)
    (listed : (t, p) ∈ l) (p' : P) :
    (l.filter fun entry => entry.2 = p').length =
      ((l.filter fun entry => entry.1 ≠ t).filter fun entry => entry.2 = p').length +
        if p' = p then 1 else 0 := by
  induction l with
  | nil => cases listed
  | cons entry l ih =>
    rw [map_cons, nodup_cons] at owners
    by_cases here : entry.1 = t
    · -- the entry of the thread; there is no other one
      have rest : l.filter (fun entry => entry.1 ≠ t) = l := by
        refine filter_eq_self.mpr fun other mem => ?_
        simp only [ne_eq, decide_not, Bool.not_eq_eq_eq_not, Bool.not_true, decide_eq_false_iff_not]
        intro same
        exact owners.1 (mem_map.mpr ⟨other, mem, same.trans here.symm⟩)
      have first : (t, p) = entry := by
        rcases mem_cons.mp listed with first | mem
        · exact first
        · exact absurd (mem_map.mpr ⟨(t, p), mem, here.symm⟩) owners.1
      subst first
      have removed : ((t, p) :: l).filter (fun entry => entry.1 ≠ t) = l := by
        rw [filter_cons_of_neg (by simp), rest]
      rw [removed]
      by_cases same : p' = p
      · subst same
        rw [filter_cons_of_pos (by simp), if_pos rfl, length_cons]
      · rw [filter_cons_of_neg (by simpa using fun h => same h.symm), if_neg same]
        rfl
    · have mem : (t, p) ∈ l := by
        rcases mem_cons.mp listed with first | mem
        · exact absurd (congrArg Prod.fst first).symm here
        · exact mem
      have ih := ih owners.2 mem
      have kept : (entry :: l).filter (fun entry => entry.1 ≠ t) =
          entry :: l.filter (fun entry => entry.1 ≠ t) :=
        filter_cons_of_pos (by simpa using here)
      rw [kept]
      by_cases same : entry.2 = p'
      · rw [filter_cons_of_pos (by simpa using same),
          filter_cons_of_pos (by simpa using same), length_cons, length_cons, ih]
        omega
      · rw [filter_cons_of_neg (by simpa using same), filter_cons_of_neg (by simpa using same), ih]

omit [DecidableEq S] in
/-- A thread returns the message that it has. -/
theorem Sys.Settled.finish (settled : s.Settled) {seqno : ℕ}
    (holds : (s.thread t).status = .holding p kmsg seqno) : (s.finish t p).Settled := by
  have carries : (s.thread t).Carries p kmsg seqno := .inl holds
  have listed : (t, p) ∈ s.outstanding := (settled.outstanding t p).mpr ⟨kmsg, seqno, carries⟩
  refine
    { settled with
      waiting := fun q u => ?_
      inProgress := fun q u => ?_
      owners := ?_
      outstanding := fun u p' => ?_
      carried := fun u p' kmsg' seqno' has => ?_
      count := fun p' => ?_ }
  · show u ∈ s.threads q ↔ (update s.thread t _ u).status = .waiting q
    by_cases here : u = t
    · subst here
      rw [update_self, settled.waiting, holds]
      exact iff_of_false nofun nofun
    · rw [update_of_ne here]
      exact settled.waiting q u
  · show (update s.thread t _ u).status = .waiting q → (update s.thread t _ u).rcv.state = _
    by_cases here : u = t
    · subst here
      rw [update_self]
      exact nofun
    · rw [update_of_ne here]
      exact settled.inProgress q u
  · exact settled.owners.sublist (filter_sublist.map Prod.fst)
  · show (u, p') ∈ s.outstanding.filter _ ↔
      ∃ kmsg' seqno', (update s.thread t _ u).Carries p' kmsg' seqno'
    rw [mem_filter, settled.outstanding]
    by_cases here : u = t
    · subst here
      rw [update_self]
      refine iff_of_false (fun ⟨_, other⟩ => by simp at other) ?_
      rintro ⟨kmsg', seqno', has⟩
      exact not_carries_of_out rfl p' kmsg' seqno' has
    · rw [update_of_ne here, and_iff_left (by simpa using here)]
  · have has' : (update s.thread t { s.thread t with status := .out } u).Carries p' kmsg'
      seqno' := has
    by_cases here : u = t
    · subst here
      rw [update_self] at has'
      exact absurd has' (not_carries_of_out rfl p' kmsg' seqno')
    · rw [update_of_ne here] at has'
      exact settled.carried u p' kmsg' seqno' has'
  · have counted := settled.count p'
    rw [outstanding_filter settled.owners listed p'] at counted
    show update s.msgcount p (s.msgcount p - 1) p' = (s.queued p').length +
      ((s.outstanding.filter fun entry => entry.1 ≠ t).filter fun entry => entry.2 = p').length + _
    by_cases same : p' = p
    · subst same
      rw [update_self, counted, if_pos rfl]
      omega
    · rw [update_of_ne same, counted, if_neg same]
      rfl

/-! ## Runs -/

/-- Every step keeps the invariant. -/
theorem Step.settled (step : Step s s') (settled : s.Settled) : s'.Settled := by
  cases step with
  | send k p kmsg => exact settled.send k p kmsg
  | receivePort k t p call poll s₁ idle copyin =>
    obtain ⟨settled₁, idle₁⟩ := settled.copyinPort copyin idle
    exact settled₁.receive k (.inl p) call poll idle₁
  | receiveSet k t set call poll idle active => exact settled.receive k (.inr set) call poll idle
  | resume t why s' woken resumed => exact settled.resume woken resumed
  | giveUp k t q why waits => exact settled.giveUp k why waits
  | finish t p kmsg seqno holds => exact settled.finish holds
  | psetAdd k set p active free => exact settled.psetAdd k set p free
  | psetRemove k set p member => exact settled.psetRemove k set p member
  | psetMove k p nset active => exact settled.psetMove k p nset
  | psetDestroy set active => exact settled.psetDestroy set

omit [DecidableEq S] [DecidableEq T] in
theorem Sys.Initial.settled (initial : s.Initial) : s.Settled where
  exclusive q := .inl (initial.messages q)
  distinct q := by
    rw [initial.threads]
    exact nodup_nil
  waiting q t := by
    rw [initial.threads, initial.idle]
    exact iff_of_false not_mem_nil nofun
  inProgress q t waits := by
    rw [initial.idle] at waits
    cases waits
  home q m mem := by
    rw [initial.messages] at mem
    cases mem
  order p := by
    rw [initial.accepted, initial.handed, queued, initial.messages]
    rfl
  seqnos p := by
    rw [initial.handed]
    rfl
  seqno p := by
    rw [initial.seqno, initial.handed]
    rfl
  owners := by
    rw [initial.outstanding]
    exact nodup_nil
  outstanding t p := by
    rw [initial.outstanding]
    refine iff_of_false not_mem_nil ?_
    rintro ⟨kmsg, seqno, has⟩
    exact not_carries_of_out (initial.idle t) p kmsg seqno has
  carried t p kmsg seqno has := absurd has (not_carries_of_out (initial.idle t) p kmsg seqno)
  count p := by
    rw [initial.msgcount, queued, initial.messages, initial.outstanding]
    rfl

theorem Reachable.settled (reachable : Reachable s) : s.Settled := by
  induction reachable with
  | initial s initial => exact initial.settled
  | step reachable step ih => exact step.settled ih

/-- What senders and receivers rely on. -/
structure Sys.Delivered (s : Sys P S T) : Prop where
  /-- Nobody waits where there is a message. -/
  exclusive : ∀ q, s.messages q = [] ∨ s.threads q = []
  /-- The messages of a port are in no other queue than the one they go to. -/
  place : ∀ p q, q ≠ s.home p → ofPort p (s.messages q) = []
  /-- Accepted messages are handed over in their order, and the others are queued in that order. -/
  order : ∀ p, s.accepted p = (s.handed p).map Handed.kmsg ++ ofPort p (s.messages (s.home p))
  /-- Messages handed over have consecutive sequence numbers. -/
  seqnos : ∀ p, (s.handed p).map Handed.seqno =
    (List.range (s.handed p).length).map fun n => n % 2 ^ 32
  /-- `ip_msgcount` counts what is queued and what is handed over and not picked up. -/
  count : ∀ p, s.msgcount p = (ofPort p (s.messages (s.home p))).length +
    (s.outstanding.filter fun entry => entry.2 = p).length
  /-- What is not picked up is with one thread, the one that it was handed to. -/
  pickup : ∀ t p, (t, p) ∈ s.outstanding ↔
    ∃ kmsg seqno, (s.thread t).Carries p kmsg seqno ∧ ⟨kmsg, seqno, t⟩ ∈ s.handed p
  /-- A thread has at most one message to pick up. -/
  once : (s.outstanding.map Prod.fst).Nodup

/-- Whatever is sent, received and moved between sets, in any order: messages are neither lost nor
duplicated nor reordered, and they are counted and numbered. -/
theorem messages_delivered (reachable : Reachable s) : s.Delivered := by
  have settled := reachable.settled
  constructor
  case exclusive => exact settled.exclusive
  case place =>
    intro p q elsewhere
    rw [ofPort, map_eq_nil_iff, filter_eq_nil_iff]
    intro m mem
    have here := settled.home q m mem
    simp only [decide_eq_true_eq]
    rintro rfl
    exact elsewhere here
  case order =>
    intro p
    have order := settled.order p
    rwa [append_nil] at order
  case seqnos => exact settled.seqnos
  case count => exact settled.count
  case pickup =>
    intro t p
    rw [settled.outstanding]
    constructor
    · rintro ⟨kmsg, seqno, carries⟩
      exact ⟨kmsg, seqno, carries, settled.carried t p kmsg seqno carries⟩
    · rintro ⟨kmsg, seqno, carries, -⟩
      exact ⟨kmsg, seqno, carries⟩
  case once => exact settled.owners

section Sample

/-- Two ports, one set and two threads; nothing happened yet. -/
def quiet : Sys (Fin 2) Unit (Fin 2) where
  pset _ := none
  setActive _ := true
  messages _ := []
  threads _ := []
  thread _ := ⟨someReceiver, none, .out⟩
  msgcount _ := 0
  seqno _ := 0
  accepted _ := []
  handed _ := []
  outstanding := []

/-- Memory is never short. -/
def plenty : Kernel := ⟨fun _ => 0#32, fun _ => some fun _ => ⟨0#8, 0#8, 0#32⟩⟩

/-- A message of a header only. -/
def plainMessage : Kmsg := ⟨0#32, 24#32, []⟩

/-- A receive that takes a plain message. -/
def plainReceive : ReceiveCall := ⟨0#32, 1000#32, none⟩

/-- A thread waits at the set, two messages for a member of it arrive, and the member is taken out
of the set. -/
def busy : Sys (Fin 2) Unit (Fin 2) :=
  (((((quiet.psetAdd plenty () 0).receive plenty 1 (.inr ()) plainReceive false).send plenty 0
    plainMessage).send plenty 0 plainMessage).psetRemove plenty () 0)

/-- One message is on its way to the thread; the other one has moved to the queue of the port. -/
theorem messages_delivered_busy :
    (busy.outstanding = [(1, 0)] ∧ (busy.handed 0).map Handed.seqno = [0] ∧
      busy.messages (.inl 0) = [(0, plainMessage)]) ∧ busy.Delivered := by
  have reachable : Reachable busy := by
    have r₀ : Reachable quiet :=
      .initial quiet ⟨fun _ => rfl, fun _ => rfl, fun _ => rfl, fun _ => rfl, fun _ => rfl,
        fun _ => rfl, fun _ => rfl, fun _ => rfl, rfl⟩
    have r₁ := r₀.step (.psetAdd quiet plenty () 0 rfl rfl)
    have r₂ := r₁.step (.receiveSet _ plenty 1 () plainReceive false rfl rfl)
    have r₃ := r₂.step (.send _ plenty 0 plainMessage)
    have r₄ := r₃.step (.send _ plenty 0 plainMessage)
    exact r₄.step (.psetRemove _ plenty () 0 rfl)
  exact ⟨⟨rfl, rfl, rfl⟩, messages_delivered reachable⟩

end Sample

end Darwin.Ipc.Delivery
