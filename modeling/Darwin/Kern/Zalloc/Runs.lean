import Darwin.Kern.Zalloc.Invariant

/-!
# Runs of the zone allocator

What holds in every state that is reached from the start by calls that the callers and the system
may make.

## Main results

* `run_in_order`: the lists, the hints and the chains are in order and nothing is held twice, if all
  requests to the default space are small.
* `run_lossless`: what was obtained is held or was returned, if moreover no call loses part of a new
  region.
-/

namespace Darwin.Kern.Zalloc

open List Darwin.Lib State

section Start

/-- The state after start-up.  The default space may hold what the structures of the zones and of
the free spaces have left of their pages; otherwise nothing is free and nothing was obtained. -/
structure Initial (p : Params) (s : State) (left : List Range) : Prop where
  geometry : Geometry p s
  zdata : ZdataOk p s
  default : Kept s.mem (s.spaces 0) 16 2147483648 left
  entries : ∀ f < p.spaceCount, f ≠ 0 → s.mem (s.spaces f).entries = 0
  numEntries : ∀ f < p.spaceCount, f ≠ 0 → (s.spaces f).numEntries = 0
  hints : ∀ f < p.spaceCount, f ≠ 0 → ∀ hash, (s.spaces f).hints hash = 0
  freeElements : ∀ z < p.numZones, s.mem (s.zones z).freeElements = 0
  lastInsert : ∀ z < p.numZones, (s.zones z).lastInsert = 0
  out : s.out = []
  obtained : s.obtained = left
  returned : s.returned = []
  apart : ∀ x, cover left x + cover [s.zdataRange] x ≤ 1
  heads : ∀ h, s.IsHead p h → cover left h + cover [s.zdataRange] h = 0

variable {exact : Prop} {p : Params} {s s₀ : State} {left : List Range} {f x : ℕ}
  {space : FreeSpace} {mem : Memory} {grain limit : ℕ}

/-- The entries at the start, by free space. -/
def startLists (left : List Range) (f : ℕ) : List Range := if f = 0 then left else []

theorem kept_nil (entries : mem space.entries = 0) (count : space.numEntries = 0)
    (hints : ∀ hash, space.hints hash = 0) : Kept mem space grain limit [] := by
  constructor
  case linked => exact entries
  case placed =>
    exact ⟨fun r member => absurd member not_mem_nil,
      fun r member => absurd member not_mem_nil, List.Pairwise.nil,
      fun r member => absurd member not_mem_nil⟩
  case entry => exact fun r member => absurd member not_mem_nil
  case hinted => exact fun hash => .inl (hints hash)
  case count => exact count

theorem held_start (some_space : 0 < p.spaceCount) (out : s.out = []) :
    s.held p (startLists left) (fun _ => []) x = cover left x := by
  have single : ∑ f ∈ Finset.range p.spaceCount, cover (startLists left f) x = cover left x := by
    rw [Finset.sum_eq_single_of_mem 0 (Finset.mem_range.mpr some_space)]
    · rfl
    · intro f _ other
      rw [startLists, if_neg other]
      rfl
  have none : ∑ z ∈ Finset.range p.numZones, cover (s.elements (fun _ => []) z) x = 0 :=
    Finset.sum_eq_zero fun z _ => rfl
  rw [held, single, none, out]
  rfl

/-- The invariant holds at the start. -/
theorem Initial.ok (initial : Initial p s left) :
    Ok exact p s (startLists left) fun _ => [] := by
  have some_space := initial.geometry.spaces_pos
  constructor
  case geometry => exact initial.geometry
  case kept =>
    intro f inside
    by_cases default : f = 0
    · subst default
      exact initial.default
    · rw [startLists, if_neg default]
      exact kept_nil (initial.entries f inside default) (initial.numEntries f inside default)
        (initial.hints f inside default)
  case zoneKept =>
    intro z inside
    exact ⟨initial.freeElements z inside, List.Pairwise.nil,
      fun e member => absurd member not_mem_nil, .inl (initial.lastInsert z inside),
      not_mem_nil⟩
  case elements => exact fun z inside r member => absurd member not_mem_nil
  case outElements =>
    intro z r member
    rw [initial.out] at member
    cases member
  case account =>
    constructor
    case within =>
      intro x
      rw [held_start some_space initial.out, initial.returned, initial.obtained]
      exact le_rfl
    case equal =>
      intro _ x
      rw [held_start some_space initial.out, initial.returned, initial.obtained]
      rfl
    case owned =>
      intro x
      have apart := initial.apart x
      rw [initial.returned, initial.obtained]
      exact apart
    case heads =>
      intro h head
      rw [initial.obtained]
      exact initial.heads h head
  case zdata => exact initial.zdata

end Start

section Samples

/-- Two free spaces and a zone of the second, without memory yet. -/
def sampleParams : Params :=
  { page := 4096, zoneMin := 0, zoneMax := 4294967295, turns := 20, spaceCount := 2, numZones := 1,
    zoneIgnoreOverflow := false }

def sampleSpace (f : ℕ) : FreeSpace :=
  if f = 0 then
    { allocUnit := 0, allocMax := 0, entries := 100, numEntries := 0, hashShift := 0,
      hints := fun _ => 0, numHints := 1 }
  else
    { allocUnit := 16, allocMax := 96, entries := 200, numEntries := 0, hashShift := 4,
      hints := fun _ => 0, numHints := 6 }

def sampleZone : Zone :=
  { freeElements := 300, lastInsert := 0, count := 0, elemSize := 32, curSize := 0, maxSize := 4096,
    exhaustible := false, expandable := true, freeSpace := 1 }

def sampleStart : State :=
  { mem := fun _ => 0, zdata := 65536, zdataSize := 16384, spaces := sampleSpace,
    zones := fun _ => sampleZone, out := [], obtained := [], returned := [] }

theorem sampleStart_geometry : Geometry sampleParams sampleStart where
  spaces_pos := by decide
  page_dvd := ⟨524288, rfl⟩
  shaped f inside := by
    have which : f = 0 ∨ f = 1 := by
      have bound : f < 2 := inside
      omega
    rcases which with rfl | rfl
    · exact ⟨rfl, rfl, rfl⟩
    · exact ⟨4, by decide, rfl, rfl, rfl, by decide, by decide, by decide⟩
  grain_dvd f inside := by
    have which : f = 0 ∨ f = 1 := by
      have bound : f < 2 := inside
      omega
    rcases which with rfl | rfl
    · exact ⟨256, rfl⟩
    · exact ⟨256, rfl⟩
  zone z inside := by
    have element : sampleStart.MayRequest 1 32 := by
      unfold MayRequest
      decide
    exact ⟨Nat.one_lt_two, element⟩
  spaceHeads := by decide
  zoneHeads z inside y inside' _ := by
    have bound : z < 1 := inside
    have bound' : y < 1 := inside'
    omega
  bothHeads := by decide

theorem sampleStart_head {h : ℕ} (head : sampleStart.IsHead sampleParams h) : h ≤ 300 := by
  rcases head with ⟨f, inside, rfl⟩ | ⟨z, inside, rfl⟩
  · revert f
    decide
  · exact le_rfl

theorem sampleStart_initial : Initial sampleParams sampleStart [] where
  geometry := sampleStart_geometry
  zdata := ⟨by decide, ⟨16, rfl⟩, ⟨4, rfl⟩, by decide⟩
  default := kept_nil rfl rfl fun _ => rfl
  entries f inside other := rfl
  numEntries := by decide
  hints f inside other hash := by
    have which : f = 1 := by
      have bound : f < 2 := inside
      omega
    subst which
    rfl
  freeElements z inside := rfl
  lastInsert z inside := rfl
  out := rfl
  obtained := rfl
  returned := rfl
  apart x := by
    rw [cover_nil, cover_single]
    split_ifs <;> omega
  heads h head := by
    have low := sampleStart_head head
    rw [cover_nil, cover_single, if_neg]
    rintro ⟨above, _⟩
    have above : 65536 ≤ h := above
    omega

/-- The element that the first call of `zalloc` gets. -/
def sampleElement : State :=
  (next sampleParams sampleStart (.zalloc 0 0)).getD sampleStart

theorem sampleElement_next :
    next sampleParams sampleStart (.zalloc 0 0) = some sampleElement := by
  have done : (next sampleParams sampleStart (.zalloc 0 0)).isSome := by decide +kernel
  obtain ⟨s, taken⟩ := Option.isSome_iff_exists.mp done
  rw [sampleElement, taken]
  rfl

theorem sampleStart_zalloc : sampleStart.Allowed sampleParams (.zalloc 0 0) ∧
    sampleStart.SmallCall sampleParams (.zalloc 0 0) :=
  ⟨⟨one_pos, fun supplied => absurd rfl supplied⟩, fun _ default => nomatch default⟩

/-- With the second free space empty nothing of a new region is lost. -/
theorem sampleStart_lossless : sampleStart.LosslessCall sampleParams (.zalloc 0 0) := by
  intro _ l linked _ _
  have empty : l = [] := by
    cases l with
    | nil => rfl
    | cons r l => exact nomatch linked.2.1
  rw [empty]
  exact .inr (.inl fun r member => absurd member not_mem_nil)

/-- Requests to the default space may be of any size. -/
theorem allowed_default {size : ℕ} (small : size < 4294967296) (s : State) :
    s.Allowed sampleParams (.zgetSpace 0 size 0) := by
  refine ⟨Nat.two_pos, ?_, fun supplied => absurd rfl supplied⟩
  rw [MayRequest, if_pos rfl]
  exact small

/-- The state after these requests to the default space. -/
def sampleRequests (sizes : List ℕ) : State :=
  (runActions (next sampleParams) sampleStart (sizes.map fun n => .zgetSpace 0 n 0)).getD
    sampleStart

theorem sampleRequests_run (sizes : List ℕ) (small : ∀ n ∈ sizes, n < 4294967296)
    (done : (runActions (next sampleParams) sampleStart
      (sizes.map fun n => .zgetSpace 0 n 0)).isSome) :
    Run (next sampleParams) (Allowed sampleParams) sampleStart
      (sampleRequests sizes) := by
  obtain ⟨s, taken⟩ := Option.isSome_iff_exists.mp done
  rw [sampleRequests, taken]
  refine run_of_forall taken fun a member u => ?_
  obtain ⟨n, listed, rfl⟩ := mem_map.mp member
  exact allowed_default (small n listed) u

end Samples

section Order

/-- The free space is in order: its list links these entries, forth and back, they ascend and are
disjoint, their number is known, each hint is the lowest entry of its length, the last one the
lowest entry of `alloc_max` or more, and a lookup finds an entry exactly if one is large enough. -/
structure SpaceOrdered (mem : Memory) (space : FreeSpace) (request : ℕ → Prop) (l : List Range) :
    Prop where
  linked : Linked mem space.entries l
  nonempty : ∀ r ∈ l, 0 < r.start ∧ 0 < r.size
  ascending : l.Pairwise fun a b => a.stop ≤ b.start
  numEntries : space.numEntries = l.length
  hint : ∀ i : ℕ, 1 ≤ i → (i : ℤ) < space.numHints →
    space.hints i = firstOf (l.filter fun r => r.size = i * space.allocUnit)
  lastHint : space.hints space.numHints = firstOf (l.filter fun r => space.allocMax ≤ r.size)
  lookup : ∀ size, request size → ∀ turns, l.length + space.numHints.toNat + 1 < turns →
    ∃ entry space', zoneFreeSpaceLookup turns space mem (roundRequest size) = some (entry, space') ∧
      (entry ≠ 0 ↔ ∃ r ∈ l, roundRequest size ≤ r.size)

/-- All free spaces and zones are in order, and no address is held twice. -/
structure InOrder (p : Params) (s : State) (ls : ℕ → List Range) (es : ℕ → List ℕ) : Prop where
  spaces : ∀ f < p.spaceCount, SpaceOrdered s.mem (s.spaces f)
    (fun size => s.MayRequest f size ∧ SmallRequest f size) (ls f)
  zones : ∀ z < p.numZones, Chained s.mem (s.zones z).freeElements (es z) ∧
    (∀ e ∈ es z, 0 < e) ∧ (es z).Pairwise (· < ·)
  disjoint : ∀ x, s.held p ls es x ≤ 1

variable {exact : Prop} {p : Params} {s s₀ : State} {left : List Range} {f size turns : ℕ}
  {ls : ℕ → List Range} {es : ℕ → List ℕ}

/-- A lookup for a request finds an entry exactly if one is large enough. -/
theorem Ok.lookup (ok : Ok exact p s ls es) (inside : f < p.spaceCount)
    (valid : s.ValidRequest f size)
    (room : (ls f).length + (s.spaces f).numHints.toNat + 1 < turns) :
    ∃ entry space',
      zoneFreeSpaceLookup turns (s.spaces f) s.mem (roundRequest size) = some (entry, space') ∧
      (entry ≠ 0 ↔ ∃ r ∈ ls f, roundRequest size ≤ r.size) := by
  have graded := (ok.geometry.measured f inside).graded
  have kept := ok.kept f inside
  have ⟨rounded, fit, _⟩ := ok.geometry.request inside valid
  rw [rounded]
  obtain ⟨⟨entry, space'⟩, found⟩ :=
    lookup_returns graded kept.hinted kept.placed kept.linked fit room
  refine ⟨entry, space', found, ?_⟩
  have lookup := lookup_spec graded kept.hinted kept.placed kept.linked
    (fun r member => (kept.entry r member).fits) fit found
  rcases lookup with ⟨null, _, small⟩ | ⟨l₁, e, l₂, list, start, large, _⟩
  · constructor
    · intro some_entry
      exact absurd null some_entry
    · rintro ⟨r, member, large⟩
      have less := small r member
      omega
  · have member : e ∈ ls f := by
      rw [list]
      exact mem_append_cons_self
    have positive := kept.placed.positive e member
    constructor
    · intro _
      exact ⟨e, member, large⟩
    · intro _
      omega

/-- What the invariant says about a free space. -/
theorem Ok.spaceOrdered (ok : Ok exact p s ls es) (inside : f < p.spaceCount) :
    SpaceOrdered s.mem (s.spaces f) (fun size => s.MayRequest f size ∧ SmallRequest f size)
      (ls f) := by
  have measured := ok.geometry.measured f inside
  have kept := ok.kept f inside
  have some_hints := (ok.geometry.shaped f inside).numHints_pos
  constructor
  case linked => exact kept.linked
  case nonempty =>
    intro r member
    exact ⟨kept.placed.positive r member, (kept.entry r member).fits.1⟩
  case ascending => exact kept.placed.sorted
  case numEntries => exact kept.count
  case hint =>
    intro i some_size below
    have fits : f ≠ 0 → ∀ r ∈ ls f, Fits (s.spaces f).allocUnit 4294967296 r.size := by
      intro other r member
      have fit := (kept.entry r member).fits
      rw [grain, limit, if_neg other, if_neg other] at fit
      exact fit
    rw [← (ok.geometry.shaped f inside).bucket_eq some_size below fits]
    exact (kept.hinted i).resolve_right (by omega)
  case lastHint =>
    rw [← bucket_last measured fun r member => (kept.entry r member).fits]
    exact (kept.hinted _).resolve_right (by omega)
  case lookup =>
    rintro size ⟨may, small⟩ turns room
    exact ok.lookup inside (may.valid small) room

/-- What the invariant says about order. -/
theorem Ok.inOrder (ok : Ok exact p s ls es) : InOrder p s ls es where
  spaces f inside := ok.spaceOrdered inside
  zones z inside :=
    have kept := ok.zoneKept z inside
    ⟨kept.chained, kept.positive, kept.sorted⟩
  disjoint x := by
    have few := ok.account.few x
    omega

/-- The invariant holds throughout a run of small calls. -/
theorem ok_of_run (exact : Prop) {cond : State → Action → Prop} (initial : Initial p s₀ left)
    (run : Run (next p) cond s₀ s)
    (met : ∀ s a, cond s a → s.Allowed p a ∧ s.SmallCall p a ∧ (exact → s.LosslessCall p a)) :
    ∃ ls es, Ok exact p s ls es := by
  have initially : ∃ ls es, Ok exact p s₀ ls es := ⟨_, _, initial.ok⟩
  refine @Run.invariant _ _ _ _ (fun s => ∃ ls es, Ok exact p s ls es) _ _ run initially ?_
  rintro t u a ⟨ls, es, ok⟩ cond taken
  have ⟨allowed, small, lossless⟩ := met t a cond
  exact ok.next allowed small lossless taken

/-- Whatever the callers ask for and wherever the system places new regions, the lists, the hints
and the chains stay in order and no address is held twice, as long as the requests to the default
space are small. -/
theorem run_in_order (initial : Initial p s₀ left)
    (run : Run (next p) (fun s a => s.Allowed p a ∧ s.SmallCall p a) s₀ s) :
    ∃ ls es, InOrder p s ls es := by
  have ⟨ls, es, ok⟩ := ok_of_run False initial run fun s a cond =>
    ⟨cond.1, cond.2, False.elim⟩
  exact ⟨ls, es, ok.inOrder⟩

theorem run_in_order_sample : Initial sampleParams sampleStart [] ∧
    ∃ ls es, InOrder sampleParams sampleElement ls es :=
  ⟨sampleStart_initial, run_in_order sampleStart_initial
    (.step .start sampleStart_zalloc sampleElement_next)⟩

/-- A request just below 4 GB is rounded up to nothing, and the next one gets the same memory. -/
theorem big_request_overlaps : ¬ ∀ p s₀ left s, Initial p s₀ left →
    Run (next p) (Allowed p) s₀ s → ∃ ls es, InOrder p s ls es := by
  intro always
  have run := sampleRequests_run [16, 4294967288, 16] (by decide) (by decide +kernel)
  obtain ⟨ls, es, order⟩ := always _ _ _ _ sampleStart_initial run
  have twice : 2 ≤ cover ((sampleRequests [16, 4294967288, 16]).out.map Prod.snd) 77840 := by
    decide +kernel
  have part := out_le_held (p := sampleParams) (x := 77840) (sampleRequests [16, 4294967288, 16])
    ls es
  have few := order.disjoint 77840
  omega

end Order

section Conservation

variable {p : Params} {s s₀ : State} {left : List Range} {mem : Memory} {slot : ℕ} {l : List Range}

theorem Linked.eq_nil (linked : Linked mem slot l)
    (positive : ∀ r ∈ l, 0 < r.start) (null : mem slot = 0) : l = [] := by
  cases l with
  | nil => rfl
  | cons r l =>
    have first := positive r mem_cons_self
    have start := linked.1
    omega

theorem Chained.eq_nil {es : List ℕ} (chained : Chained mem slot es)
    (positive : ∀ e ∈ es, 0 < e) (null : mem slot = 0) : es = [] := by
  cases es with
  | nil => rfl
  | cons e es =>
    have first := positive e mem_cons_self
    have start := chained.1
    omega

/-- The one entry that is left. -/
theorem Linked.eq_single (linked : Linked mem slot l)
    (positive : ∀ r ∈ l, 0 < r.start) (some_left : mem slot ≠ 0) (last : mem (mem slot) = 0) :
    l = [⟨mem slot, lengthOf mem (mem slot)⟩] := by
  cases l with
  | nil => exact absurd linked some_left
  | cons r l =>
    obtain ⟨start, -, length, rest⟩ := linked
    have behind : ∀ r ∈ l, 0 < r.start := fun r inside =>
      positive r (mem_cons_of_mem _ inside)
    rw [start] at last ⊢
    rw [length, rest.eq_nil behind last]

theorem held_sample (s : State) (ls : ℕ → List Range) (es : ℕ → List ℕ) (x : ℕ) :
    s.held sampleParams ls es x = cover (ls 0) x + cover (ls 1) x + cover (s.elements es 0) x +
      cover (s.out.map Prod.snd) x := by
  have spaces : sampleParams.spaceCount = 2 := rfl
  have zones : sampleParams.numZones = 1 := rfl
  rw [held, spaces, zones, Finset.sum_range_succ, Finset.sum_range_one, Finset.sum_range_one]

/-- All memory is accounted for: each address that was obtained is held or was returned, as often as
it was obtained, and no other address is. -/
structure Conserved (p : Params) (s : State) (ls : ℕ → List Range) (es : ℕ → List ℕ) : Prop where
  linked : ∀ f < p.spaceCount, Linked s.mem (s.spaces f).entries (ls f) ∧ ∀ r ∈ ls f, 0 < r.start
  chained : ∀ z < p.numZones, Chained s.mem (s.zones z).freeElements (es z) ∧ ∀ e ∈ es z, 0 < e
  total : ∀ x, s.held p ls es x + cover s.returned x = cover s.obtained x
  once : ∀ x, s.held p ls es x ≤ 1

/-- No memory is lost, as long as the requests to the default space are small and no call adds a
region that lies below an entry, is not adjacent to the one in front, and is larger than the
request. -/
theorem run_lossless (initial : Initial p s₀ left) (run : Run (next p)
      (fun s a => s.Allowed p a ∧ s.SmallCall p a ∧ s.LosslessCall p a) s₀ s) :
    ∃ ls es, Conserved p s ls es := by
  have ⟨ls, es, ok⟩ := ok_of_run True initial run fun s a cond =>
    ⟨cond.1, cond.2.1, fun _ => cond.2.2⟩
  refine ⟨ls, es, ?_⟩
  constructor
  case linked =>
    exact fun f inside => ⟨(ok.kept f inside).linked, (ok.kept f inside).placed.positive⟩
  case chained =>
    exact fun z inside => ⟨(ok.zoneKept z inside).chained, (ok.zoneKept z inside).positive⟩
  case total => exact ok.account.equal trivial
  case once => exact ok.inOrder.disjoint

theorem run_lossless_sample : Initial sampleParams sampleStart [] ∧
    ∃ ls es, Conserved sampleParams sampleElement ls es :=
  ⟨sampleStart_initial, run_lossless sampleStart_initial
    (.step .start ⟨sampleStart_zalloc.1, sampleStart_zalloc.2, sampleStart_lossless⟩
      sampleElement_next)⟩

/-- What is left of a region below the first entry, after the request, is nobody's. -/
theorem region_below_lost : ¬ ∀ p s₀ left s, Initial p s₀ left →
    Run (next p) (Allowed p) s₀ s → ∃ ls es, Conserved p s ls es := by
  intro always
  have run := sampleRequests_run [16, 4112] (by decide) (by decide +kernel)
  obtain ⟨ls, es, conserved⟩ := always _ _ _ _ sampleStart_initial run
  have total := conserved.total 73744
  have zero := (conserved.linked 0 Nat.two_pos).1.eq_single (conserved.linked 0 Nat.two_pos).2
    (by decide +kernel) (by decide +kernel)
  have one := (conserved.linked 1 Nat.one_lt_two).1.eq_nil (conserved.linked 1 Nat.one_lt_two).2
    (by decide +kernel)
  have elements := (conserved.chained 0 one_pos).1.eq_nil (conserved.chained 0 one_pos).2
    (by decide +kernel)
  have nobody : (sampleRequests [16, 4112]).held sampleParams ls es 73744 = 0 := by
    rw [held_sample, zero, one, State.elements, elements]
    decide +kernel
  have lost : cover (sampleRequests [16, 4112]).returned 73744 <
      cover (sampleRequests [16, 4112]).obtained 73744 := by
    decide +kernel
  omega

end Conservation

end Darwin.Kern.Zalloc
