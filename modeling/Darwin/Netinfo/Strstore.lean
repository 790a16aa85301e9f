import Mathlib.Data.List.Pairwise
import Mathlib.Logic.Function.Basic
import Darwin.Netinfo.Index.Ranstrcmp

/-!
# The string store

`strstore.c` keeps one copy of each string that is in use, with a count of its uses, in a search tree
like those of `index.c`.  The count is an `int`.

## Main results

* `counts_iff` - the counts are exact, and the copies shared, as long as no count gets to `2 ^ 31`
-/

namespace Darwin.Netinfo.Strstore

open List Option Index
open Function (update update_of_ne update_self)

/-- What a `strtreenode` holds: the string, where its copy is, and its count. -/
structure Stored where
  string : Name
  copy : ℕ
  refcount : BitVec 32

/-- `strtreenode`. -/
inductive STree where
  | nil
  | node (stored : Stored) (left right : STree)

/-- `strstore`: where the copy is, and the tree afterwards.  `fresh` is what `malloc` returns for a new
copy. -/
def strstore (fresh : ℕ) (string : Name) : STree → ℕ × STree
  | .nil => (fresh, .node ⟨string, fresh, 1⟩ .nil .nil)
  | .node here left right =>
    match ranstrcmp string here.string with
    | .lt =>
      let (copy, left) := strstore fresh string left
      (copy, .node here left right)
    | .eq => (here.copy, .node { here with refcount := here.refcount + 1 } left right)
    | .gt =>
      let (copy, right) := strstore fresh string right
      (copy, .node here left right)

/-- `insertnode`. -/
def insertnode : STree → STree → STree
  | .nil, thenode => thenode
  | .node here left right, .nil => .node here left right
  | .node here left right, .node there left' right' =>
    match ranstrcmp there.string here.string with
    | .lt => .node here (insertnode left (.node there left' right')) right
    | .eq => .node here left right
    | .gt => .node here left (insertnode right (.node there left' right'))

/-- `removenode`, for a node with these subtrees; `pick` is what `pickleft` says of its address. -/
def removenode (pick : Bool) : STree → STree → STree
  | .nil, right => right
  | left, .nil => left
  | left, right => if pick then insertnode left right else insertnode right left

/-- `strdelete`: the copy that it frees, and the tree afterwards. -/
def strdelete (pick : Bool) (string : Name) : STree → Option ℕ × STree
  | .nil => (none, .nil)
  | .node here left right =>
    match ranstrcmp string here.string with
    | .lt =>
      let (freed, left) := strdelete pick string left
      (freed, .node here left right)
    | .eq =>
      let refcount := if 0 < here.refcount.toInt then here.refcount - 1 else here.refcount
      if refcount = 0 then (some here.copy, removenode pick left right)
      else (none, .node { here with refcount := refcount } left right)
    | .gt =>
      let (freed, right) := strdelete pick string right
      (freed, .node here left right)

/-- `ss_alloc` and `ss_unalloc`, with what `malloc` and `pickleft` say if they are asked. -/
inductive Call where
  | alloc (string : Name) (fresh : ℕ)
  | unalloc (string : Name) (pick : Bool)

/-- The tree after a call. -/
def Call.next (t : STree) : Call → STree
  | .alloc string fresh => (strstore fresh string t).2
  | .unalloc string pick => (strdelete pick string t).2

/-! ## What is stored -/

section Tree

variable {t u left right : STree} {s : Name} {fresh : ℕ} {pick : Bool} {here : Stored}

/-- What the nodes hold, from left to right. -/
def STree.toList : STree → List Stored
  | .nil => []
  | .node here left right => left.toList ++ here :: right.toList

/-- The order of a search tree. -/
def Before (a b : Stored) : Prop := ranstrcmp a.string b.string = .lt

/-- A search tree. -/
def STree.Sorted (t : STree) : Prop := t.toList.Pairwise Before

theorem sorted_node : (STree.node here left right).Sorted ↔
    left.Sorted ∧ right.Sorted ∧ (∀ a ∈ left.toList, Before a here) ∧
      (∀ b ∈ right.toList, Before here b) ∧ ∀ a ∈ left.toList, ∀ b ∈ right.toList, Before a b := by
  rw [STree.Sorted, STree.toList, pairwise_append, pairwise_cons]
  constructor
  · rintro ⟨sortedLeft, ⟨greater, sortedRight⟩, across⟩
    exact ⟨sortedLeft, sortedRight, fun a mem => across a mem here mem_cons_self, greater,
      fun a mem b mem' => across a mem b (mem_cons_of_mem _ mem')⟩
  rintro ⟨sortedLeft, sortedRight, less, greater, across⟩
  refine ⟨sortedLeft, ⟨greater, sortedRight⟩, fun a mem b mem' => ?_⟩
  rcases mem_cons.mp mem' with rfl | mem'
  · exact less a mem
  · exact across a mem b mem'

theorem gt_of_before {a b : Stored} (before : Before a b) :
    ranstrcmp b.string a.string = .gt := Std.OrientedCmp.gt_iff_lt.mpr before

/-- A tree all of whose strings are greater is hung in at the right end, and one all of whose
strings are less at the left end. -/
theorem toList_insertnode (t u : STree) :
    ((∀ a ∈ t.toList, ∀ b ∈ u.toList, Before a b) →
      (insertnode t u).toList = t.toList ++ u.toList) ∧
    ((∀ a ∈ t.toList, ∀ b ∈ u.toList, Before b a) →
      (insertnode t u).toList = u.toList ++ t.toList) := by
  induction t with
  | nil => exact ⟨fun _ => rfl, fun _ => (append_nil _).symm⟩
  | node here left right ihLeft ihRight =>
    cases u with
    | nil => exact ⟨fun _ => (append_nil _).symm, fun _ => rfl⟩
    | node there left' right' =>
      constructor
      · intro apart
        have compared := gt_of_before (apart here (by simp [STree.toList]) there
          (by simp [STree.toList]))
        have hung := ihRight.1 fun a mem => apart a (by simp [STree.toList, mem])
        rw [insertnode, compared]
        simp only [STree.toList, append_assoc, cons_append] at hung ⊢
        rw [hung]
      · intro apart
        have compared : ranstrcmp there.string here.string = .lt :=
          apart here (by simp [STree.toList]) there (by simp [STree.toList])
        have hung := ihLeft.2 fun a mem => apart a (by simp [STree.toList, mem])
        rw [insertnode, compared]
        simp only [STree.toList, append_assoc, cons_append] at hung ⊢
        rw [hung, append_assoc, cons_append, append_assoc]

theorem toList_removenode (sorted : (STree.node here left right).Sorted) :
    (removenode pick left right).toList = left.toList ++ right.toList := by
  have across := (sorted_node.mp sorted).2.2.2.2
  unfold removenode
  split
  · rfl
  · exact (append_nil _).symm
  · split
    · exact (toList_insertnode ..).1 across
    · exact (toList_insertnode ..).2 fun b mem a mem' => across a mem' b mem

/-- The place of a string: what is stored before it, what it is stored in, and what comes after. -/
structure Place (s : Name) (pre : List Stored) (mid : Option Stored) (post : List Stored) : Prop where
  less : ∀ a ∈ pre, ranstrcmp a.string s = .lt
  own : ∀ a ∈ mid, a.string = s
  greater : ∀ b ∈ post, ranstrcmp s b.string = .lt

variable {pre post : List Stored} {mid mid' : Option Stored} {n : Name → ℕ} {k : ℕ}

theorem Place.under_left (place : Place s pre mid post)
    (sorted : (STree.node here left right).Sorted) (compared : ranstrcmp s here.string = .lt) :
    Place s pre mid (post ++ here :: right.toList) := by
  refine ⟨place.less, place.own, fun b mem => ?_⟩
  rcases mem_append.mp mem with mem | mem
  · exact place.greater b mem
  · rcases mem_cons.mp mem with rfl | mem
    · exact compared
    · exact Std.TransCmp.lt_trans compared ((sorted_node.mp sorted).2.2.2.1 b mem)

theorem Place.under_right (place : Place s pre mid post)
    (sorted : (STree.node here left right).Sorted) (compared : ranstrcmp s here.string = .gt) :
    Place s (left.toList ++ here :: pre) mid post := by
  have less : ranstrcmp here.string s = .lt := Std.OrientedCmp.gt_iff_lt.mp compared
  refine ⟨fun a mem => ?_, place.own, place.greater⟩
  rcases mem_append.mp mem with mem | mem
  · exact Std.TransCmp.lt_trans ((sorted_node.mp sorted).2.2.1 a mem) less
  · rcases mem_cons.mp mem with rfl | mem
    · exact less
    · exact place.less a mem

theorem place_root (sorted : (STree.node here left right).Sorted) :
    Place here.string left.toList (some here) right.toList :=
  ⟨(sorted_node.mp sorted).2.2.1, fun _ mem => by rw [some.inj mem],
    (sorted_node.mp sorted).2.2.2.1⟩

theorem mem_mid {a : Stored} : a ∈ pre ++ (mid.toList ++ post) ↔ a ∈ mid ∨ a ∈ pre ++ post := by
  rw [mem_append, mem_append, mem_append, mem_toList, or_left_comm, Option.mem_def]

theorem Place.ne (place : Place s pre mid post) {a : Stored} (mem : a ∈ pre ++ post) :
    a.string ≠ s := by
  rintro rfl
  have self : ranstrcmp a.string a.string = .eq := Std.ReflCmp.compare_self
  rcases mem_append.mp mem with mem | mem
  · exact absurd (self.symm.trans (place.less a mem)) nofun
  · exact absurd (self.symm.trans (place.greater a mem)) nofun

/-- What `strdelete` leaves of what is stored. -/
def Stored.dropped (old : Stored) : Option Stored :=
  let refcount := if 0 < old.refcount.toInt then old.refcount - 1 else old.refcount
  if refcount = 0 then none else some { old with refcount := refcount }

/-- Both functions walk to the place of the string, and change nothing else. -/
theorem place_spec (s : Name) (sorted : t.Sorted) : ∃ pre mid post, Place s pre mid post ∧
    t.toList = pre ++ (mid.toList ++ post) ∧
    (∀ fresh, ∃ e, e = mid.elim ⟨s, fresh, 1⟩ (fun old => { old with refcount := old.refcount + 1 }) ∧
      (strstore fresh s t).2.toList = pre ++ e :: post ∧ (strstore fresh s t).1 = e.copy) ∧
    ∀ pick, (strdelete pick s t).2.toList = pre ++ ((mid.bind Stored.dropped).toList ++ post) ∧
      (strdelete pick s t).1 = if mid.bind Stored.dropped = none then mid.map Stored.copy else none := by
  induction t with
  | nil =>
    exact ⟨[], none, [], ⟨nofun, nofun, nofun⟩, rfl, fun fresh => ⟨_, rfl, rfl, rfl⟩,
      fun _ => ⟨rfl, rfl⟩⟩
  | node here left right ihLeft ihRight =>
    have ⟨sortedLeft, sortedRight, _⟩ := sorted_node.mp sorted
    simp only [strstore, strdelete]
    cases compared : ranstrcmp s here.string with
    | lt =>
      obtain ⟨pre, mid, post, place, before, stored, deleted⟩ := ihLeft sortedLeft
      refine ⟨pre, mid, _, place.under_left sorted compared, ?_, fun fresh => ?_, fun pick => ?_⟩
      · rw [STree.toList, before, append_assoc, append_assoc]
      · obtain ⟨e, new, after, result⟩ := stored fresh
        exact ⟨e, new, by rw [STree.toList, after, append_assoc, cons_append], result⟩
      · exact ⟨by rw [STree.toList, (deleted pick).1, append_assoc, append_assoc], (deleted pick).2⟩
    | eq =>
      obtain rfl := Std.LawfulEqCmp.eq_of_compare compared
      refine ⟨_, _, _, place_root sorted, rfl, fun fresh => ⟨_, rfl, rfl, rfl⟩, fun pick => ?_⟩
      rw [bind_some, Stored.dropped]
      generalize (if 0 < here.refcount.toInt then here.refcount - 1 else here.refcount) = refcount
      by_cases gone : refcount = 0
      · simp [gone, toList_removenode sorted]
      · simp only [if_neg gone]
        exact ⟨rfl, rfl⟩
    | gt =>
      obtain ⟨pre, mid, post, place, before, stored, deleted⟩ := ihRight sortedRight
      refine ⟨_, mid, post, place.under_right sorted compared, ?_, fun fresh => ?_, fun pick => ?_⟩
      · rw [STree.toList, before, append_assoc, cons_append]
      · obtain ⟨e, new, after, result⟩ := stored fresh
        exact ⟨e, new, by rw [STree.toList, after, append_assoc, cons_append], result⟩
      · exact ⟨by rw [STree.toList, (deleted pick).1, append_assoc, cons_append], (deleted pick).2⟩

/-! ## Counting -/

/-- The strings with a count are stored, each once and with its count. -/
structure Exact (stored : List Stored) (n : Name → ℕ) : Prop where
  once : (stored.map Stored.string).Nodup
  count : ∀ e ∈ stored, e.refcount.toInt = n e.string
  held : ∀ s, (∃ e ∈ stored, e.string = s) ↔ 0 < n s

theorem Place.pairwise (place : Place s pre mid post) (own : ∀ a ∈ mid', a.string = s)
    (sorted : (pre ++ (mid.toList ++ post)).Pairwise Before) :
    (pre ++ (mid'.toList ++ post)).Pairwise Before := by
  obtain ⟨before, after, across⟩ := pairwise_append.mp sorted
  refine pairwise_append.mpr ⟨before, pairwise_append.mpr
    ⟨by cases mid' <;> simp, (pairwise_append.mp after).2.1, fun a mem b mem' => ?_⟩,
    fun a mem b mem' => ?_⟩
  · rw [Before, own a (mem_toList.mp mem)]
    exact place.greater b mem'
  rcases mem_append.mp mem' with mem' | mem'
  · rw [Before, own b (mem_toList.mp mem')]
    exact place.less a mem
  · exact across a mem b (mem_append_right _ mem')

theorem nodup_of_pairwise {stored : List Stored} (sorted : stored.Pairwise Before) :
    (stored.map Stored.string).Nodup := by
  refine pairwise_map.mpr (sorted.imp fun {a b} before same => ?_)
  have self : ranstrcmp a.string a.string = .eq := Std.ReflCmp.compare_self
  rw [Before, ← same, self] at before
  exact absurd before nofun

/-- One count changes; the copies stay where they are, while their strings are stored. -/
structure Changed (t : STree) (n n' : Name → ℕ) (u : STree) : Prop where
  sorted : u.Sorted
  exact' : Exact u.toList n'
  kept : ∀ old ∈ t.toList, 0 < n' old.string →
    ∃ e ∈ u.toList, e.string = old.string ∧ e.copy = old.copy

theorem Place.changed (place : Place s pre mid post) (sorted : t.Sorted) (exact' : Exact t.toList n)
    (before : t.toList = pre ++ (mid.toList ++ post))
    (after : u.toList = pre ++ (mid'.toList ++ post))
    (own : ∀ a ∈ mid', a.string = s ∧ a.refcount.toInt = k ∧ ∀ old ∈ mid, a.copy = old.copy)
    (held : mid'.isSome ↔ 0 < k) : Changed t n (update n s k) u := by
  rw [STree.Sorted, before] at sorted
  rw [before] at exact'
  have sorted' := place.pairwise (fun a mem => (own a mem).1) sorted
  refine ⟨by rwa [STree.Sorted, after], ⟨?_, fun e mem => ?_, fun r => ?_⟩, fun old mem pos => ?_⟩
  · rw [after]
    exact nodup_of_pairwise sorted'
  · rw [after, mem_mid] at mem
    rcases mem with mem | mem
    · rw [(own e mem).1, update_self, (own e mem).2.1]
    · rw [update_of_ne (place.ne mem), exact'.count e (mem_mid.mpr (.inr mem))]
  · simp only [after, mem_mid]
    by_cases same : r = s
    · rw [same, update_self, ← held, isSome_iff_exists]
      constructor
      · rintro ⟨e, mem | mem, at'⟩
        · exact ⟨e, mem⟩
        · exact absurd at' (place.ne mem)
      · exact fun ⟨e, mem⟩ => ⟨e, .inl mem, (own e mem).1⟩
    · rw [update_of_ne same, ← exact'.held r]
      simp only [mem_mid]
      constructor
      · rintro ⟨e, mem | mem, rfl⟩
        · exact absurd (own e mem).1 same
        · exact ⟨e, .inr mem, rfl⟩
      · rintro ⟨e, mem | mem, rfl⟩
        · exact absurd (place.own e mem) same
        · exact ⟨e, .inr mem, rfl⟩
  · rw [before, mem_mid] at mem
    rcases mem with mem | mem
    · rw [place.own old mem, update_self, ← held] at pos
      obtain ⟨e, new⟩ := isSome_iff_exists.mp pos
      exact ⟨e, after ▸ mem_mid.mpr (.inl new), (own e new).1.trans (place.own old mem).symm,
        (own e new).2.2 old mem⟩
    · exact ⟨old, after ▸ mem_mid.mpr (.inr mem), rfl, rfl⟩

theorem strstore_spec (sorted : t.Sorted) (exact' : Exact t.toList n) (small : n s + 1 < 2 ^ 31) :
    Changed t n (update n s (n s + 1)) (strstore fresh s t).2 ∧
      ∃ e ∈ (strstore fresh s t).2.toList, e.string = s ∧ e.copy = (strstore fresh s t).1 := by
  obtain ⟨pre, mid, post, place, before, stored, -⟩ := place_spec s sorted
  obtain ⟨e, new, after, result⟩ := stored fresh
  have own : e.string = s ∧ e.refcount.toInt = (n s + 1 : ℕ) ∧ ∀ old ∈ mid, e.copy = old.copy := by
    subst new
    cases mid with
    | none =>
      have unused : n s = 0 := by
        by_contra used
        obtain ⟨a, mem, same⟩ := (exact'.held s).mpr (Nat.pos_of_ne_zero used)
        rw [before] at mem
        exact place.ne mem same
      exact ⟨rfl, by rw [unused]; rfl, nofun⟩
    | some old =>
      have was := exact'.count old (by simp [before])
      rw [place.own old rfl] at was
      refine ⟨place.own old rfl, ?_, fun a mem => by rw [← some.inj mem]; rfl⟩
      rw [Option.elim, BitVec.toInt_add, was, show (1 : BitVec 32).toInt = 1 from rfl,
        Int.bmod_eq_of_le (by omega) (by omega)]
      omega
  have own' : ∀ a ∈ some e, a.string = s ∧ a.refcount.toInt = (n s + 1 : ℕ) ∧
      ∀ old ∈ mid, a.copy = old.copy := fun a mem => by rwa [← some.inj mem]
  replace after : (strstore fresh s t).2.toList = pre ++ ((some e).toList ++ post) := after
  exact ⟨place.changed sorted exact' before after own' (by simp), e, by simp [after], own.1,
    result.symm⟩

theorem strdelete_spec (sorted : t.Sorted) (exact' : Exact t.toList n) (pos : 0 < n s) :
    Changed t n (update n s (n s - 1)) (strdelete pick s t).2 ∧
      ∀ copy, (strdelete pick s t).1 = some copy →
        n s - 1 = 0 ∧ ∃ e ∈ t.toList, e.string = s ∧ e.copy = copy := by
  obtain ⟨pre, mid, post, place, before, -, deleted⟩ := place_spec s sorted
  obtain ⟨after, freed⟩ := deleted pick
  obtain ⟨e, mem, same⟩ := (exact'.held s).mpr pos
  rw [before, mem_mid] at mem
  obtain rfl : mid = some e := mem.resolve_right fun mem => place.ne mem same
  have was := exact'.count e (by simp [before])
  rw [same] at was
  have less : (e.refcount - 1).toInt = (n s - 1 : ℕ) := by
    have := e.refcount.toInt_lt
    rw [BitVec.toInt_sub, was, show (1 : BitVec 32).toInt = 1 from rfl,
      Int.bmod_eq_of_le (by omega) (by omega)]
    omega
  have zero : e.refcount - 1 = 0 ↔ n s - 1 = 0 := by
    rw [← BitVec.toInt_inj, less, show BitVec.toInt 0 = 0 from rfl, Int.natCast_eq_zero]
  have left' : e.dropped =
      if n s - 1 = 0 then none else some { e with refcount := e.refcount - 1 } := by
    have low : 0 < e.refcount.toInt := by omega
    simp only [Stored.dropped, if_pos low, zero]
  rw [bind_some, left'] at after freed
  refine ⟨place.changed sorted exact' before after (fun a mem => ?_) ?_, fun copy result => ?_⟩
  · split_ifs at mem
    · cases mem
    · cases mem
      exact ⟨same, less, fun old mem' => by rw [← some.inj mem']⟩
  · split_ifs with last
    · simp [last]
    · simp [Nat.pos_of_ne_zero last]
  by_cases last : n s - 1 = 0
  · rw [freed, if_pos last, if_pos rfl] at result
    exact ⟨last, e, by simp [before], same, some.inj result⟩
  · rw [freed, if_neg last, if_neg nofun] at result
    cases result

/-! ## Runs -/

/-- How often each string has been allocated and not given back, after a call. -/
def Call.count (n : Name → ℕ) : Call → Name → ℕ
  | .alloc string _ => update n string (n string + 1)
  | .unalloc string _ => update n string (n string - 1)

/-- While its count is positive, each `ss_alloc` of the string returns this copy. -/
def SameCopy (copy : ℕ) (string : Name) : STree → (Name → ℕ) → List Call → Prop
  | _, _, [] => True
  | t, n, call :: calls =>
    (∀ fresh, call = .alloc string fresh → (strstore fresh string t).1 = copy) ∧
      (0 < call.count n string → SameCopy copy string (call.next t) (call.count n) calls)

/-- What is asked of the result of a call: of an `ss_alloc`, that it is shared; of an `ss_unalloc`,
that it frees the copy of its string, and only when its count is zero. -/
def Call.Served (t : STree) (n : Name → ℕ) (calls : List Call) : Call → Prop
  | .alloc string fresh => SameCopy (strstore fresh string t).1 string (strstore fresh string t).2
      (Call.count n (.alloc string fresh)) calls
  | .unalloc string pick => ∀ copy, (strdelete pick string t).1 = some copy →
      Call.count n (.unalloc string pick) string = 0 ∧
        ∃ e ∈ t.toList, e.string = string ∧ e.copy = copy

/-- After every call the counts are exact and its result is as it should be. -/
def Counts : STree → (Name → ℕ) → List Call → Prop
  | t, n, [] => Exact t.toList n
  | t, n, call :: calls =>
    Exact t.toList n ∧ call.Served t n calls ∧ Counts (call.next t) (call.count n) calls

/-- No string is given back more often than it was allocated. -/
def Disciplined : (Name → ℕ) → List Call → Prop
  | _, [] => True
  | n, call :: calls =>
    (∀ string pick, call = .unalloc string pick → 0 < n string) ∧ Disciplined (call.count n) calls

/-- No count gets to `2 ^ 31`. -/
def Small : (Name → ℕ) → List Call → Prop
  | _, [] => True
  | n, call :: calls =>
    (∀ string fresh, call = .alloc string fresh → n string + 1 < 2 ^ 31) ∧ Small (call.count n) calls

variable {call : Call} {calls : List Call} {copy : ℕ}

variable (sorted : t.Sorted) (exact' : Exact t.toList n)

include sorted exact'

theorem call_changed (disciplined : Disciplined n (call :: calls))
    (small : Small n (call :: calls)) : Changed t n (call.count n) (call.next t) := by
  cases call with
  | alloc s fresh => exact (strstore_spec sorted exact' (small.1 s fresh rfl)).1
  | unalloc s pick => exact (strdelete_spec sorted exact' (disciplined.1 s pick rfl)).1

/-- As long as no count gets to `2 ^ 31`, a string that is stored stays where it is. -/
theorem sameCopy_of_stored (disciplined : Disciplined n calls) (small : Small n calls)
    {e : Stored} (mem : e ∈ t.toList) : SameCopy e.copy e.string t n calls := by
  induction calls generalizing t n e with
  | nil => trivial
  | cons call calls ih =>
    have changed := call_changed sorted exact' disciplined small
    refine ⟨?_, fun pos => ?_⟩
    · rintro fresh rfl
      obtain ⟨-, a, memA, ownA, copyA⟩ := strstore_spec sorted exact' (small.1 _ fresh rfl)
      obtain ⟨e', mem', own, copy⟩ := changed.kept e mem (by rw [Call.count, update_self]; omega)
      have one : a = e' := inj_on_of_nodup_map changed.exact'.once memA mem' (ownA.trans own.symm)
      rw [← copyA, one, copy]
    · obtain ⟨e', mem', own, copy⟩ := changed.kept e mem pos
      rw [← own, ← copy]
      exact ih changed.sorted changed.exact' disciplined.2 small.2 mem'

theorem counts_of_small (disciplined : Disciplined n calls) (small : Small n calls) :
    Counts t n calls := by
  induction calls generalizing t n with
  | nil => exact exact'
  | cons call calls ih =>
    have changed := call_changed sorted exact' disciplined small
    refine ⟨exact', ?_, ih changed.sorted changed.exact' disciplined.2 small.2⟩
    cases call with
    | alloc s fresh =>
      obtain ⟨-, a, mem, own, copy⟩ := strstore_spec sorted exact' (small.1 s fresh rfl)
      rw [Call.Served, ← copy, ← own]
      subst own
      exact sameCopy_of_stored changed.sorted changed.exact' disciplined.2 small.2 mem
    | unalloc s pick =>
      intro copy result
      obtain ⟨last, stored⟩ := (strdelete_spec sorted exact' (disciplined.1 s pick rfl)).2 copy result
      exact ⟨by rw [Call.count, update_self, last], stored⟩

omit sorted exact'

theorem Counts.exact (counts : Counts t n calls) : Exact t.toList n := by
  cases calls with
  | nil => exact counts
  | cons => exact counts.1

/-- A count that is exact is an `int`. -/
theorem small_of_counts (counts : Counts t n calls) : Small n calls := by
  induction calls generalizing t n with
  | nil => trivial
  | cons call calls ih =>
    obtain ⟨-, -, later⟩ := counts
    refine ⟨?_, ih later⟩
    rintro s fresh rfl
    have exact' := later.exact
    obtain ⟨e, mem, own⟩ := (exact'.held s).mpr (by rw [Call.count, update_self]; omega)
    have count := exact'.count e mem
    rw [own, Call.count, update_self] at count
    have := e.refcount.toInt_lt
    omega

/-- Starting from the empty store, the counts are exact and the copies shared exactly as long as no
count gets to `2 ^ 31`, whatever `pickleft` says. -/
theorem counts_iff (disciplined : Disciplined (fun _ => 0) calls) :
    Counts .nil (fun _ => 0) calls ↔ Small (fun _ => 0) calls := by
  refine ⟨small_of_counts, counts_of_small Pairwise.nil ⟨nodup_nil, nofun, fun s => ?_⟩ disciplined⟩
  simp [STree.toList]

/-- Two uses of one string, and the first given back. -/
theorem counts_two : Counts .nil (fun _ => 0) [.alloc [1] 0, .alloc [1] 1, .unalloc [1] true] :=
  (counts_iff (by simp [Disciplined, Call.count])).mpr (by simp [Small, Call.count])

theorem not_small_replicate {k : ℕ} (many : 2 ^ 31 ≤ n s + k) (small : n s < 2 ^ 31) :
    ¬ Small n (replicate k (.alloc s fresh)) := by
  induction k generalizing n with
  | zero => omega
  | succ k ih =>
    intro ⟨next, rest⟩
    have := next s fresh rfl
    exact ih (by rw [Call.count, update_self]; omega) (by rw [Call.count, update_self]; omega) rest

theorem disciplined_replicate {k : ℕ} : Disciplined n (replicate k (.alloc s fresh)) := by
  induction k generalizing n with
  | zero => trivial
  | succ k ih => exact ⟨nofun, ih⟩

/-- The count of a string that is allocated `2 ^ 31` times is negative. -/
theorem counts_overflow : ¬ ∀ calls, Disciplined (fun _ => 0) calls →
    Counts .nil (fun _ => 0) calls := by
  intro counts
  have big : ¬ Small (fun _ => 0) (replicate (2 ^ 31) (.alloc [] 0)) :=
    not_small_replicate (Nat.le_add_left ..) (by decide)
  exact big (small_of_counts (counts _ disciplined_replicate))

end Tree

end Darwin.Netinfo.Strstore
