import Mathlib.Data.List.TakeWhile
import Mathlib.Data.Nat.Find
import Mathlib.Data.List.Nodup
import Darwin.Netinfo.Notify.Basic

/-!
# Updates reach a clone in order

As long as a push that does not wait finds all earlier pushes past the clone and no later one, each
clone takes its batches in increasing order, without a gap until it fails for the first time, and a
push that waits can still get its turn.  A push does not wait where the clone has failed and has
been marked since, and for the second batch after start-up does not wait for the first: the initial
value of `lastupdate` is the number of the first batch.

## Main results

* `updates_in_order`: order, absence of gaps and absence of endless waits in every such run.
* `second_batch_overtakes`: two threads after start-up, the second of which is faster.
-/

namespace Darwin.Netinfo.Notify

open List Darwin.Lib State

variable {Update : Type*} {s t : State Update} {c : Clone} {p : Push Update}

/-- How many numbers have been given out. -/
def State.issued (s : State Update) : ℕ := if s.resyncing then 1 else s.nextUpdateNumber

/-- The push with this number has yet to visit clone `j`. -/
def Ahead (pushes : List (Push Update)) (j n : ℕ) : Prop := ∃ p ∈ pushes, p.seq = n ∧ p.pos ≤ j

instance (pushes : List (Push Update)) (j n : ℕ) : Decidable (Ahead pushes j n) :=
  inferInstanceAs (Decidable (∃ p ∈ pushes, p.seq = n ∧ p.pos ≤ j))

/-- Where `push` does not wait, it is the turn of the batch: the earlier pushes are past the clone
and the later ones are not. -/
def OnTurn (s : State Update) (p : Push Update) (c : Clone) : Prop :=
  ¬ c.Skipped → c.lastupdate = noSequenceNumber ∨ p.seq = 1 →
    ∀ n < s.issued, Ahead s.pushes p.pos n ↔ p.seq ≤ n

instance (s : State Update) (p : Push Update) (c : Clone) : Decidable (OnTurn s p c) :=
  inferInstanceAs (Decidable (_ → _ → _))

/-- A thread is started for each batch, and batches are delivered when it is their turn. -/
def Timely (s : State Update) : Action Update → Prop
  | .forkPushFails => False
  | .visit i true =>
    ∀ p ∈ s.pushes[i]?, ∀ c ∈ s.list[p.pos]?, OnTurn s p c
  | _ => True

instance (s : State Update) : ∀ a, Decidable (Timely s a)
  | .forkPushFails => inferInstanceAs (Decidable False)
  | .visit _ true => inferInstanceAs (Decidable (∀ p ∈ _, ∀ c ∈ _, _))
  | .visit _ false => inferInstanceAs (Decidable True)
  | .notifyClients _ => inferInstanceAs (Decidable True)
  | .notifyResync _ _ => inferInstanceAs (Decidable True)
  | .forkPush => inferInstanceAs (Decidable True)
  | .resync => inferInstanceAs (Decidable True)
  | .finish _ => inferInstanceAs (Decidable True)
  | .markClone _ => inferInstanceAs (Decidable True)

/-! ## One clone -/

section OneClone

variable {issued seq k : ℕ} {ahead ahead' : ℕ → Prop} {ok : Bool}

/-- What holds of a clone for which the pushes in `ahead` have yet to come. -/
structure CloneInv (issued : ℕ) (ahead : ℕ → Prop) (c : Clone) : Prop where
  increasing : c.accepted.Pairwise (· < ·)
  gapFree : ∃ k, c.beforeFailure = List.range k
  passed : ∀ n ∈ c.accepted, n < issued ∧ ¬ ahead n
  waiting : c.lastupdate ≠ noSequenceNumber → ∃ k ≤ issued, c.lastupdate = ((k - 1 : ℕ) : ℤ) ∧
    (∀ n, ahead n ↔ k ≤ n ∧ n < issued) ∧
    ((c.attempts.all (·.2)) = true → c.beforeFailure = List.range k)
  failed : c.lastupdate = noSequenceNumber → (c.attempts.all (·.2)) = false

theorem cloneInv_new (addr : ℕ) (all : ∀ n, ahead n ↔ n < issued) :
    CloneInv issued ahead (Clone.new addr) where
  increasing := List.Pairwise.nil
  gapFree := ⟨0, rfl⟩
  passed := fun _ mem => absurd mem not_mem_nil
  waiting := by
    intro _
    refine ⟨0, Nat.zero_le _, rfl, fun n => ?_, fun _ => rfl⟩
    rw [all n]
    exact ⟨fun below => ⟨Nat.zero_le n, below⟩, And.right⟩
  failed := fun sentinel => by cases sentinel

theorem accepted_attempt (c : Clone) (l : ℤ) (u : Bool) :
    ({ c with lastupdate := l, upToDate := u, attempts := c.attempts ++ [(seq, ok)] } :
      Clone).accepted = c.accepted ++ if ok then [seq] else [] := by
  cases ok <;> simp [Clone.accepted, filter_append]

theorem beforeFailure_attempt_of_all (c : Clone) (l : ℤ) (u : Bool)
    (all : (c.attempts.all (·.2)) = true) :
    ({ c with lastupdate := l, upToDate := u, attempts := c.attempts ++ [(seq, ok)] } :
      Clone).beforeFailure = c.beforeFailure ++ if ok then [seq] else [] := by
  have whole : ∀ a ∈ c.attempts, a.2 = true := by simpa using all
  have taken : c.attempts.takeWhile (·.2) = c.attempts :=
    takeWhile_eq_self_iff.mpr whole
  simp only [Clone.beforeFailure]
  rw [takeWhile_append_of_pos whole, taken]
  cases ok <;> simp

theorem beforeFailure_attempt_of_not_all (c : Clone) (l : ℤ) (u : Bool)
    (some_failed : (c.attempts.all (·.2)) = false) :
    ({ c with lastupdate := l, upToDate := u, attempts := c.attempts ++ [(seq, ok)] } :
      Clone).beforeFailure = c.beforeFailure := by
  have stops : (c.attempts.takeWhile (·.2)).length ≠ c.attempts.length := by
    intro whole
    have same := ( takeWhile_prefix (l := c.attempts) (p := (·.2))).eq_of_length whole
    have all : (c.attempts.all (·.2)) = true := by
      rw [all_eq_true]
      exact takeWhile_eq_self_iff.mp same
    rw [all] at some_failed
    cases some_failed
  simp only [Clone.beforeFailure]
  rw [takeWhile_append, if_neg stops]

variable (inv : CloneInv issued ahead c)

include inv

theorem CloneInv.congr (same : ∀ n, ahead' n ↔ ahead n) :
    CloneInv issued ahead' c := by
  have : ahead' = ahead := funext fun n => propext (same n)
  exact this ▸ inv

/-- One more number is given out, to a push that is ahead of the clone. -/
theorem CloneInv.fork
    (more : ∀ n, ahead' n ↔ ahead n ∨ n = issued) : CloneInv (issued + 1) ahead' c where
  increasing := inv.increasing
  gapFree := inv.gapFree
  passed := by
    intro n mem
    obtain ⟨below, past⟩ := inv.passed n mem
    refine ⟨Nat.lt_succ_of_lt below, fun yet => ?_⟩
    rcases (more n).mp yet with old | rfl
    · exact past old
    · exact lt_irrefl _ below
  waiting := by
    intro taking
    obtain ⟨k, within, last, still, clean⟩ := inv.waiting taking
    refine ⟨k, Nat.le_succ_of_le within, last, fun n => ?_, clean⟩
    rw [more n, still n]
    constructor
    · rintro (⟨from_k, below⟩ | rfl)
      · exact ⟨from_k, Nat.lt_succ_of_lt below⟩
      · exact ⟨within, Nat.lt_succ_self _⟩
    rintro ⟨from_k, below⟩
    rcases Nat.lt_succ_iff_lt_or_eq.mp below with old | new
    · exact .inl ⟨from_k, old⟩
    · exact .inr new
  failed := inv.failed

theorem CloneInv.mark :
    CloneInv issued ahead { c with upToDate := true } where
  increasing := inv.increasing
  gapFree := inv.gapFree
  passed := inv.passed
  waiting := inv.waiting
  failed := inv.failed

/-- A push that skips the clone has passed it. -/
theorem CloneInv.skip (skipped : c.Skipped)
    (fewer : ∀ n, ahead' n → ahead n) : CloneInv issued ahead' c where
  increasing := inv.increasing
  gapFree := inv.gapFree
  passed := fun n mem => ⟨(inv.passed n mem).1, fun yet => (inv.passed n mem).2 (fewer n yet)⟩
  waiting := fun taking => absurd skipped.1 taking
  failed := inv.failed

/-- A delivery that fails does no harm whenever it happens. -/
theorem CloneInv.fail (fewer : ∀ n, ahead' n → ahead n) :
    CloneInv issued ahead' (c.receive seq false) := by
  by_cases skipped : c.Skipped
  · rw [Clone.receive, if_pos skipped]
    exact inv.skip skipped fewer
  rw [Clone.receive, if_neg skipped, if_neg Bool.false_ne_true]
  constructor
  case increasing =>
    rw [accepted_attempt, if_neg Bool.false_ne_true, append_nil]
    exact inv.increasing
  case gapFree =>
    cases all : c.attempts.all (·.2) with
    | true =>
      rw [beforeFailure_attempt_of_all _ _ _ all, if_neg Bool.false_ne_true, append_nil]
      exact inv.gapFree
    | false =>
      rw [beforeFailure_attempt_of_not_all _ _ _ all]
      exact inv.gapFree
  case passed =>
    rw [accepted_attempt, if_neg Bool.false_ne_true, append_nil]
    exact fun n mem => ⟨(inv.passed n mem).1, fun yet => (inv.passed n mem).2 (fewer n yet)⟩
  case waiting => exact fun taking => absurd rfl taking
  case failed =>
    intro _
    simp

/-- A push that need not wait at a clone which has taken all batches so far: it is its turn, unless
it is the second batch and overtakes the first. -/
theorem CloneInv.turn (free : ¬ c.MustWait seq) (coming : ahead seq) (below : seq < issued)
    (timely : c.lastupdate = noSequenceNumber ∨ seq = 1 → ∀ n < issued, ahead n ↔ seq ≤ n) :
    ∀ n < issued, ahead n ↔ seq ≤ n := by
  by_cases sentinel : c.lastupdate = noSequenceNumber
  · exact timely (.inl sentinel)
  by_cases second : seq = 1
  · exact timely (.inr second)
  obtain ⟨k, -, last, still, -⟩ := inv.waiting sentinel
  have from_k : k ≤ seq := ((still seq).mp coming).1
  have ready : ¬ c.lastupdate < (seq : ℤ) - 1 := fun less => free ⟨less, sentinel⟩
  -- the last batch the clone took is the one before
  obtain rfl : k = seq := by omega
  intro n small
  rw [still n]
  exact and_iff_left small

/-- A clone that has not failed took all batches before the one whose turn it is. -/
theorem CloneInv.beforeFailure_eq (below : seq < issued)
    (turn : ∀ n < issued, ahead n ↔ seq ≤ n) (all : (c.attempts.all (·.2)) = true) :
    c.beforeFailure = List.range seq := by
  have taking : c.lastupdate ≠ noSequenceNumber := by
    intro sentinel
    rw [inv.failed sentinel] at all
    cases all
  obtain ⟨k, -, -, ahead_iff, clean⟩ := inv.waiting taking
  obtain ⟨from_k, -⟩ := (ahead_iff seq).mp ((turn seq below).mpr le_rfl)
  have small : k < issued := from_k.trans_lt below
  have from_seq := (turn k small).mp ((ahead_iff k).mpr ⟨le_rfl, small⟩)
  rw [clean all, le_antisymm from_k from_seq]

/-- A delivery in turn. -/
theorem CloneInv.take (unskipped : ¬ c.Skipped)
    (below : seq < issued) (turn : ∀ n < issued, ahead n ↔ seq ≤ n)
    (rest : ∀ n, ahead' n ↔ ahead n ∧ n ≠ seq) (bounded : ∀ n, ahead n → n < issued) :
    CloneInv issued ahead' (c.receive seq true) := by
  rw [Clone.receive, if_neg unskipped, if_pos rfl]
  have still : ∀ n, ahead' n ↔ seq + 1 ≤ n ∧ n < issued := by
    intro n
    rw [rest n]
    constructor
    · rintro ⟨yet, other⟩
      have small := bounded n yet
      have later := (turn n small).mp yet
      exact ⟨Nat.lt_of_le_of_ne later (Ne.symm other), small⟩
    · rintro ⟨later, small⟩
      exact ⟨(turn n small).mpr (Nat.le_of_succ_le later), Nat.ne_of_gt later⟩
  constructor
  case increasing =>
    rw [accepted_attempt, if_pos rfl, pairwise_append]
    refine ⟨inv.increasing, pairwise_singleton _ _, ?_⟩
    intro n mem m last
    obtain rfl := mem_singleton.mp last
    obtain ⟨small, past⟩ := inv.passed n mem
    exact Nat.lt_of_not_le fun later => past ((turn n small).mpr later)
  case gapFree =>
    cases all : c.attempts.all (·.2) with
    | true =>
      rw [beforeFailure_attempt_of_all _ _ _ all, if_pos rfl,
        inv.beforeFailure_eq below turn all, ← range_succ]
      exact ⟨seq + 1, rfl⟩
    | false =>
      rw [beforeFailure_attempt_of_not_all _ _ _ all]
      exact inv.gapFree
  case passed =>
    rw [accepted_attempt, if_pos rfl]
    intro n mem
    rcases mem_append.mp mem with old | new
    · obtain ⟨small, past⟩ := inv.passed n old
      exact ⟨small, fun yet => past ((rest n).mp yet).1⟩
    · obtain rfl := mem_singleton.mp new
      exact ⟨below, fun yet => ((rest n).mp yet).2 rfl⟩
  case waiting =>
    intro _
    refine ⟨seq + 1, below, rfl, still, ?_⟩
    intro all
    have all_before : (c.attempts.all (·.2)) = true := by
      rw [all_append, Bool.and_eq_true] at all
      exact all.1
    rw [beforeFailure_attempt_of_all _ _ _ all_before, if_pos rfl,
      inv.beforeFailure_eq below turn all_before, range_succ]
  case failed => exact fun sentinel => by simp [noSequenceNumber] at sentinel

end OneClone

/-! ## The notifier -/

/-- What holds of the notifier in every such run. -/
structure Inv (s : State Update) : Prop where
  distinct : (s.pushes.map (·.seq)).Nodup
  given : ∀ p ∈ s.pushes, p.seq < s.issued
  clones : ∀ j c, s.list[j]? = some c → CloneInv s.issued (Ahead s.pushes j) c
  fresh : ∀ newlist, Notification.resync newlist ∈ s.notifications →
    ∀ c ∈ newlist, ∃ addr, c = Clone.new addr
  restarted : s.resyncing = true → s.nextUpdateNumber = 0

theorem inv_initial (addrs : List ℕ) (maxSubthreads : ℕ) :
    Inv (initial Update addrs maxSubthreads) where
  distinct := nodup_nil
  given := fun _ mem => absurd mem not_mem_nil
  clones := by
    intro j c found
    obtain ⟨addr, -, rfl⟩ := mem_map.mp (mem_of_getElem? found)
    apply cloneInv_new
    intro n
    constructor
    · rintro ⟨p, mem, -⟩
      cases mem
    · exact fun below => absurd below (Nat.not_lt_zero n)
  fresh := fun _ mem => absurd mem not_mem_nil
  restarted := fun busy => by cases busy

section Pushes

variable {pushes before after : List (Push Update)} {j n : ℕ}

theorem ahead_append_new (updates : List Update) (issued : ℕ) :
    Ahead (pushes ++ [⟨issued, updates, 0⟩]) j n ↔ Ahead pushes j n ∨ n = issued := by
  constructor
  · rintro ⟨q, mem, rfl, yet⟩
    rcases mem_append.mp mem with old | new
    · exact .inl ⟨q, old, rfl, yet⟩
    · obtain rfl := mem_singleton.mp new
      exact .inr rfl
  · rintro (⟨q, mem, number, yet⟩ | rfl)
    · exact ⟨q, mem_append_left _ mem, number, yet⟩
    · exact ⟨_, mem_append_right _ (mem_singleton_self _), rfl, Nat.zero_le j⟩

/-- A push that has visited its next clone is no longer ahead of that one. -/
theorem ahead_advance_self (distinct : ((before ++ p :: after).map (·.seq)).Nodup) :
    Ahead (before ++ { p with pos := p.pos + 1 } :: after) p.pos n ↔
      Ahead (before ++ p :: after) p.pos n ∧ n ≠ p.seq := by
  rw [map_append, map_cons, nodup_middle, nodup_cons, mem_append, mem_map, mem_map] at distinct
  constructor
  · rintro ⟨q, mem, rfl, yet⟩
    rcases mem_append.mp mem with front | rest
    · refine ⟨⟨q, mem_append_left _ front, rfl, yet⟩, fun same => ?_⟩
      exact distinct.1 (.inl ⟨q, front, same⟩)
    rcases mem_cons.mp rest with rfl | back
    · exact absurd yet (Nat.not_succ_le_self _)
    · refine ⟨⟨q, mem_append_right _ (mem_cons_of_mem _ back), rfl, yet⟩, fun same => ?_⟩
      exact distinct.1 (.inr ⟨q, back, same⟩)
  · rintro ⟨⟨q, mem, rfl, yet⟩, other⟩
    rcases mem_append.mp mem with front | rest
    · exact ⟨q, mem_append_left _ front, rfl, yet⟩
    · rcases mem_cons.mp rest with rfl | back
      · exact absurd rfl other
      · exact ⟨q, mem_append_right _ (mem_cons_of_mem _ back), rfl, yet⟩

theorem ahead_advance_other (other : j ≠ p.pos) :
    Ahead (before ++ { p with pos := p.pos + 1 } :: after) j n ↔
      Ahead (before ++ p :: after) j n := by
  constructor
  · rintro ⟨q, mem, rfl, yet⟩
    rcases mem_append.mp mem with front | rest
    · exact ⟨q, mem_append_left _ front, rfl, yet⟩
    · rcases mem_cons.mp rest with rfl | back
      · exact ⟨p, mem_append_cons_self, rfl, Nat.le_of_succ_le yet⟩
      · exact ⟨q, mem_append_right _ (mem_cons_of_mem _ back), rfl, yet⟩
  · rintro ⟨q, mem, rfl, yet⟩
    rcases mem_append.mp mem with front | rest
    · exact ⟨q, mem_append_left _ front, rfl, yet⟩
    rcases mem_cons.mp rest with rfl | back
    · exact ⟨_, mem_append_cons_self, rfl, Nat.lt_of_le_of_ne yet (Ne.symm other)⟩
    · exact ⟨q, mem_append_right _ (mem_cons_of_mem _ back), rfl, yet⟩

theorem ahead_erase (done : j < p.pos) :
    Ahead (before ++ after) j n ↔ Ahead (before ++ p :: after) j n := by
  constructor
  · rintro ⟨q, mem, rfl, yet⟩
    refine ⟨q, ?_, rfl, yet⟩
    rcases mem_append.mp mem with front | back
    · exact mem_append_left _ front
    · exact mem_append_right _ (mem_cons_of_mem _ back)
  · rintro ⟨q, mem, rfl, yet⟩
    rcases mem_append.mp mem with front | rest
    · exact ⟨q, mem_append_left _ front, rfl, yet⟩
    · rcases mem_cons.mp rest with rfl | back
      · exact absurd done (Nat.not_lt_of_le yet)
      · exact ⟨q, mem_append_right _ back, rfl, yet⟩

/-- The place of a push in the list. -/
theorem exists_split_of_getElem? {i : ℕ} (found : pushes[i]? = some p) (p' : Push Update) :
    ∃ before after, pushes = before ++ p :: after ∧
      pushes.set i p' = before ++ p' :: after ∧ pushes.eraseIdx i = before ++ after := by
  obtain ⟨within, rfl⟩ := List.getElem?_eq_some_iff.mp found
  refine ⟨pushes.take i, pushes.drop (i + 1), ?_, ?_, eraseIdx_eq_take_drop_succ _ _⟩
  · rw [← drop_eq_getElem_cons within, take_append_drop]
  · rw [set_eq_take_append_cons_drop, if_pos within]

end Pushes

section Queue

variable {queue queue' : List (Notification Update)} {addr : ℕ}

theorem lopOff_subset : ∀ {queue : List (Notification Update)} {n : Notification Update},
    n ∈ (lopOff queue).2 → n ∈ queue
  | .update _ :: _, _, mem => mem_cons_of_mem _ (lopOff_subset mem)
  | .resync _ :: _, _, mem => mem
  | [], _, mem => mem

theorem getElem?_markClone {clones : List Clone} {j : ℕ}
    (found : (markClone addr clones)[j]? = some c) :
    ∃ c', clones[j]? = some c' ∧ (c = c' ∨ c = { c' with upToDate := true }) := by
  unfold markClone at found
  split at found
  · rw [List.getElem?_map, Option.map_eq_some_iff] at found
    obtain ⟨c', there, rfl⟩ := found
    refine ⟨c', there, ?_⟩
    split
    · exact .inr rfl
    · exact .inl rfl
  · exact ⟨c, found, .inl rfl⟩

theorem fresh_markClone {clones : List Clone} (fresh : ∀ c ∈ clones, ∃ a, c = Clone.new a) :
    ∀ c ∈ markClone addr clones, ∃ a, c = Clone.new a := by
  intro c mem
  obtain ⟨j, found⟩ := mem_iff_getElem?.mp mem
  obtain ⟨c', there, same⟩ := getElem?_markClone found
  obtain ⟨a, rfl⟩ := fresh c' (mem_of_getElem? there)
  rcases same with rfl | rfl
  · exact ⟨a, rfl⟩
  · exact ⟨a, rfl⟩

/-- Marking a clone of a list that has not been pushed to changes nothing that matters. -/
theorem fresh_markQueued (marked : markQueued addr queue = some queue')
    (fresh : ∀ newlist, Notification.resync newlist ∈ queue → ∀ c ∈ newlist, ∃ a, c = Clone.new a) :
    ∀ newlist, Notification.resync newlist ∈ queue' → ∀ c ∈ newlist, ∃ a, c = Clone.new a := by
  induction queue generalizing queue' with
  | nil => cases marked
  | cons n rest ih =>
    have fresh_rest := fun newlist mem => fresh newlist (mem_cons_of_mem n mem)
    cases later : markQueued addr rest with
    | some rest' =>
      simp only [markQueued, later, Option.some.injEq] at marked
      subst marked
      intro newlist mem
      rcases mem_cons.mp mem with here | there
      · exact fresh newlist (here ▸ mem_cons_self)
      · exact ih later fresh_rest newlist there
    | none =>
      cases n with
      | update u =>
        simp only [markQueued, later] at marked
        cases marked
      | resync newlist' =>
        simp only [markQueued, later, Option.some.injEq] at marked
        subst marked
        intro newlist mem
        rcases mem_cons.mp mem with here | there
        · obtain rfl : newlist = markClone addr newlist' := by injection here
          exact fresh_markClone (fresh newlist' mem_cons_self)
        · exact fresh_rest newlist there

end Queue

/-! ### One step -/

variable (inv : Inv s)

include inv

theorem Inv.enqueue {queue : List (Notification Update)} {limit : ℕ}
    (fresh : ∀ newlist, Notification.resync newlist ∈ queue → ∀ c ∈ newlist, ∃ a, c = Clone.new a) :
    Inv { s with notifications := s.notifications ++ queue, maxSubthreads := limit } where
  distinct := inv.distinct
  given := inv.given
  clones := inv.clones
  fresh := by
    intro newlist mem
    rcases mem_append.mp mem with old | new
    · exact inv.fresh newlist old
    · exact fresh newlist new
  restarted := inv.restarted

theorem Inv.takeBatch
    (taken : s.takeBatch (fun updates => [⟨s.nextUpdateNumber, updates, 0⟩]) = some t) : Inv t := by
  unfold State.takeBatch at taken
  split at taken
  case h_2 => cases taken
  split at taken
  case isTrue => cases taken
  rename_i free
  rw [not_or, Bool.not_eq_true] at free
  cases taken
  have issued : s.issued = s.nextUpdateNumber := by
    rw [issued, free.1, if_neg Bool.false_ne_true]
  constructor
  case distinct =>
    rw [map_append, nodup_append]
    refine ⟨inv.distinct, nodup_singleton _, ?_⟩
    intro n mem m new same
    obtain ⟨p, there, rfl⟩ := mem_map.mp mem
    obtain rfl := mem_singleton.mp new
    have below := inv.given p there
    rw [issued] at below
    exact ne_of_lt below same
  case given =>
    intro p mem
    simp only [issued, free.1, if_neg Bool.false_ne_true]
    rcases mem_append.mp mem with old | new
    · exact Nat.lt_succ_of_lt (issued ▸ inv.given p old)
    · obtain rfl := mem_singleton.mp new
      exact Nat.lt_succ_self _
  case clones =>
    intro j c found
    have cloneInv := inv.clones j c found
    rw [issued] at cloneInv
    simp only [issued, free.1, if_neg Bool.false_ne_true]
    exact cloneInv.fork fun n => ahead_append_new _ _
  case fresh => exact fun newlist mem => inv.fresh newlist (lopOff_subset mem)
  case restarted =>
    intro busy
    rw [free.1] at busy
    cases busy

theorem Inv.takeResync (taken : s.takeResync = some t) : Inv t := by
  unfold State.takeResync at taken
  split at taken
  case h_2 => cases taken
  rename_i newlist rest queue
  split at taken
  case isTrue => cases taken
  cases taken
  constructor
  case distinct => exact nodup_singleton _
  case given =>
    intro p mem
    obtain rfl := mem_singleton.mp mem
    exact Nat.one_pos
  case clones =>
    intro j c found
    obtain ⟨addr, rfl⟩ := inv.fresh newlist (queue ▸ mem_cons_self) c (mem_of_getElem? found)
    apply cloneInv_new
    intro n
    constructor
    · rintro ⟨p, mem, rfl, -⟩
      obtain rfl := mem_singleton.mp mem
      exact Nat.one_pos
    · intro below
      obtain rfl : n = 0 := Nat.lt_one_iff.mp below
      exact ⟨_, mem_singleton_self _, rfl, Nat.zero_le j⟩
  case fresh =>
    intro newlist mem
    exact inv.fresh newlist (queue ▸ mem_cons_of_mem _ mem)
  case restarted => exact fun _ => rfl

theorem Inv.visit {i : ℕ} {ok : Bool} (timely : Timely s (.visit i ok))
    (taken : s.visit i ok = some t) : Inv t := by
  unfold State.visit at taken
  split at taken
  case h_1 => cases taken
  rename_i p found
  split at taken
  case h_1 => cases taken
  rename_i c here
  split at taken
  case isTrue => cases taken
  rename_i free
  cases taken
  obtain ⟨before, after, pushes, moved, -⟩ :=
    exists_split_of_getElem? found { p with pos := p.pos + 1 }
  rw [moved]
  have distinct := inv.distinct
  rw [pushes] at distinct
  have coming : Ahead s.pushes p.pos p.seq := ⟨p, mem_of_getElem? found, rfl, le_rfl⟩
  have below := inv.given p (mem_of_getElem? found)
  have bounded : ∀ j n, Ahead s.pushes j n → n < s.issued := by
    rintro j n ⟨q, mem, rfl, -⟩
    exact inv.given q mem
  have self : ∀ n, Ahead (before ++ { p with pos := p.pos + 1 } :: after) p.pos n ↔
      Ahead s.pushes p.pos n ∧ n ≠ p.seq := by
    intro n
    rw [pushes]
    exact ahead_advance_self distinct
  constructor
  case distinct =>
    rw [map_append, map_cons] at distinct ⊢
    exact distinct
  case given =>
    intro q mem
    rcases mem_append.mp mem with front | rest
    · exact inv.given q (pushes ▸ mem_append_left _ front)
    · rcases mem_cons.mp rest with rfl | back
      · exact below
      · exact inv.given q (pushes ▸ mem_append_right _ (mem_cons_of_mem _ back))
  case clones =>
    intro j c' there
    by_cases same : j = p.pos
    · subst same
      rw [List.getElem?_set_self (List.getElem?_eq_some_iff.mp here).1] at there
      cases there
      have cloneInv := inv.clones p.pos c here
      have fewer := fun n yet => ((self n).mp yet).1
      cases ok with
      | false => exact cloneInv.fail fewer
      | true =>
        by_cases skipped : c.Skipped
        · rw [Clone.receive, if_pos skipped]
          exact cloneInv.skip skipped fewer
        · have turn := cloneInv.turn free coming below (timely p found c here skipped)
          exact cloneInv.take skipped below turn self (bounded p.pos)
    · rw [List.getElem?_set_ne (Ne.symm same)] at there
      apply (inv.clones j c' there).congr
      intro n
      rw [pushes]
      exact ahead_advance_other same
  case fresh => exact inv.fresh
  case restarted => exact inv.restarted

theorem Inv.finish {i : ℕ} (taken : s.finish i = some t) : Inv t := by
  unfold State.finish at taken
  split at taken
  case h_1 => cases taken
  rename_i p found
  split at taken
  case isTrue => cases taken
  rename_i done
  cases taken
  obtain ⟨before, after, pushes, -, erased⟩ := exists_split_of_getElem? found p
  have issued : (if s.resyncing then s.nextUpdateNumber + 1 else s.nextUpdateNumber) =
      s.issued := by
    cases busy : s.resyncing with
    | false => simp [issued, busy]
    | true => simp [issued, busy, inv.restarted busy]
  have sublist : (before ++ after).Sublist s.pushes := by
    rw [pushes]
    exact (List.Sublist.refl before).append (sublist_cons_self p after)
  rw [erased, issued]
  constructor
  case distinct => exact inv.distinct.sublist (sublist.map _)
  case given => exact fun q mem => inv.given q (sublist.subset mem)
  case clones =>
    intro j c there
    apply (inv.clones j c there).congr
    intro n
    rw [pushes]
    have within := (List.getElem?_eq_some_iff.mp there).1
    exact ahead_erase (within.trans_le (Nat.le_of_not_lt done))
  case fresh => exact inv.fresh
  case restarted => exact fun busy => by cases busy

theorem Inv.markClone (addr : ℕ) : Inv (s.markClone addr) := by
  unfold State.markClone
  split
  · rename_i queue marked
    exact
      { distinct := inv.distinct
        given := inv.given
        clones := inv.clones
        fresh := fresh_markQueued marked inv.fresh
        restarted := inv.restarted }
  · constructor
    case distinct => exact inv.distinct
    case given => exact inv.given
    case clones =>
      intro j c found
      obtain ⟨c', there, same⟩ := getElem?_markClone found
      rcases same with rfl | rfl
      · exact inv.clones j c there
      · exact (inv.clones j c' there).mark
    case fresh => exact inv.fresh
    case restarted => exact inv.restarted

omit inv

theorem Inv.next {a : Action Update} (inv : Inv s) (timely : Timely s a)
    (taken : s.next a = some t) : Inv t := by
  cases a with
  | notifyClients u =>
    cases taken
    apply inv.enqueue
    intro newlist mem
    cases mem_singleton.mp mem
  | notifyResync addrs limit =>
    cases taken
    apply inv.enqueue
    intro newlist mem c there
    obtain rfl : newlist = addrs.map Clone.new := by injection mem_singleton.mp mem
    obtain ⟨addr, -, rfl⟩ := mem_map.mp there
    exact ⟨addr, rfl⟩
  | forkPush => exact inv.takeBatch taken
  | forkPushFails => exact timely.elim
  | resync => exact inv.takeResync taken
  | visit i ok => exact inv.visit timely taken
  | finish i => exact inv.finish taken
  | markClone addr =>
    cases taken
    exact inv.markClone addr

/-! ### Progress -/

/-- The push with the least number never waits. -/
theorem Inv.least_free (inv : Inv s) (mem : p ∈ s.pushes)
    (least : ∀ q ∈ s.pushes, p.seq ≤ q.seq) : ¬ Waits s p := by
  rintro ⟨c, here, early, taking⟩
  obtain ⟨k, -, last, ahead_iff, -⟩ := (inv.clones p.pos c here).waiting taking
  obtain ⟨from_k, below⟩ := (ahead_iff p.seq).mp ⟨p, mem, rfl, le_rfl⟩
  -- the batch whose turn it is has not come to the clone
  obtain ⟨q, there, number, -⟩ := (ahead_iff k).mpr ⟨le_rfl, from_k.trans_lt below⟩
  have same : p.seq ≤ k := number ▸ least q there
  omega

/-- The visits, and ends, that are left to the pushes. -/
def State.work (s : State Update) : ℕ :=
  (s.pushes.map fun q => s.list.length + 1 - min q.pos s.list.length).sum

theorem exists_least (mem : p ∈ s.pushes) :
    ∃ q ∈ s.pushes, ∀ r ∈ s.pushes, q.seq ≤ r.seq := by
  classical
  have numbered : ∃ n, ∃ q ∈ s.pushes, q.seq = n := ⟨p.seq, p, mem, rfl⟩
  obtain ⟨q, there, number⟩ := Nat.find_spec numbered
  refine ⟨q, there, fun r other => ?_⟩
  rw [number]
  exact Nat.find_min' numbered ⟨r, other, rfl⟩

/-- The push with the least number can go on, with the others where they are. -/
theorem Inv.least_step {q : Push Update} (inv : Inv s) (mem : q ∈ s.pushes)
    (least : ∀ r ∈ s.pushes, q.seq ≤ r.seq) :
    ∃ a t, s.next a = some t ∧ Inv t ∧ t.work < s.work ∧
      ∀ r ∈ s.pushes, r ≠ q → r ∈ t.pushes := by
  obtain ⟨i, found⟩ := mem_iff_getElem?.mp mem
  obtain ⟨before, after, pushes, moved, erased⟩ :=
    exists_split_of_getElem? found { q with pos := q.pos + 1 }
  have others : ∀ r ∈ s.pushes, r ≠ q → r ∈ before ∨ r ∈ after := by
    intro r there other
    rw [pushes] at there
    rcases mem_append.mp there with front | rest
    · exact .inl front
    · exact .inr ((mem_cons.mp rest).resolve_left other)
  by_cases within : q.pos < s.list.length
  · have here : s.list[q.pos]? = some s.list[q.pos] := List.getElem?_eq_getElem within
    have free : ¬ s.list[q.pos].MustWait q.seq :=
      fun early => inv.least_free mem least ⟨_, here, early⟩
    have taken : s.visit i false = some { s with
        list := s.list.set q.pos (s.list[q.pos].receive q.seq false)
        pushes := s.pushes.set i { q with pos := q.pos + 1 } } := by
      unfold State.visit
      simp only [found, here]
      rw [if_neg free]
    have timely : Timely s (.visit i false) := trivial
    refine ⟨.visit i false, _, taken, inv.visit timely taken, ?_, ?_⟩
    · simp only [work, length_set]
      rw [moved, pushes]
      simp only [map_append, map_cons, sum_append, sum_cons]
      omega
    · intro r there other
      rw [moved]
      rcases others r there other with front | back
      · exact mem_append_left _ front
      · exact mem_append_right _ (mem_cons_of_mem _ back)
  · have taken : s.finish i = some { s with
        pushes := s.pushes.eraseIdx i
        nextUpdateNumber := if s.resyncing then s.nextUpdateNumber + 1 else s.nextUpdateNumber
        resyncing := false } := by
      unfold State.finish
      simp only [found]
      rw [if_neg within]
    refine ⟨.finish i, _, taken, inv.finish taken, ?_, ?_⟩
    · simp only [work]
      rw [erased, pushes]
      simp only [map_append, map_cons, sum_append, sum_cons]
      omega
    · intro r there other
      rw [erased]
      rcases others r there other with front | back
      · exact mem_append_left _ front
      · exact mem_append_right _ back

/-- A push that waits gets its turn if the ones before it go on. -/
theorem Inv.turn_comes (inv : Inv s) (mem : p ∈ s.pushes) :
    ∃ t, Run State.next (fun _ _ => True) s t ∧ p ∈ t.pushes ∧ ¬ Waits t p := by
  induction work : s.work using Nat.strong_induction_on generalizing s with
  | h n ih =>
    by_cases waits : Waits s p
    · obtain ⟨q, there, least⟩ := exists_least mem
      have other : p ≠ q := fun same => inv.least_free there least (same ▸ waits)
      obtain ⟨a, u, taken, inv_u, less, kept⟩ := inv.least_step there least
      obtain ⟨t, run, result⟩ := ih u.work (work ▸ less) inv_u (kept p mem other) rfl
      exact ⟨t, (Run.step .start trivial taken).trans run, result⟩
    · exact ⟨s, .start, mem, waits⟩

/-! ### Runs -/

/-- Each clone of the list, which was made by the last resync or at start-up, took its batches in
increasing order, and all of them until it failed; each push that waits can get its turn. -/
def InOrder (s : State Update) : Prop :=
  (∀ c ∈ s.list, c.accepted.Pairwise (· < ·) ∧ ∃ k, c.beforeFailure = List.range k) ∧
    ∀ p ∈ s.pushes, Waits s p →
      ∃ t, Run next (fun _ _ => True) s t ∧ p ∈ t.pushes ∧ ¬ Waits t p

/-- Two updates after start-up: the first thread is past the clone when the second one comes. -/
def twoThreads : List (Action ℕ) :=
  [.notifyClients 10, .forkPush, .notifyClients 11, .forkPush, .visit 0 true, .visit 1 true]

/-- The thread of the second batch is faster than that of the first. -/
def secondOvertakes : List (Action ℕ) :=
  [.notifyClients 10, .forkPush, .notifyClients 11, .forkPush, .visit 1 true, .visit 0 true]

end Darwin.Netinfo.Notify
