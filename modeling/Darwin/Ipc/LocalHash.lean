import Darwin.Ipc.Entry.Basic
import Darwin.Lib.LinearProbing
import Darwin.Lib.Runs
import Mathlib.Order.Interval.Finset.Nat
import Mathlib.Algebra.Order.Ring.Int

/-!
# The local reverse hash table

A model of `ipc_hash_local_lookup`, `ipc_hash_local_insert` and `ipc_hash_local_delete`.  The table
of a space holds a hash table with open addressing in the field `ie_index` of its slots, which finds
the entry of an object.  Deletion shifts the displaced entries of a clump back into the hole.

## Main results

* `displaced_iff` — the test for a displaced entry
* `LocalHash.delete_probed` — deletion ends and keeps the invariant
* `localHash_exact` — lookup finds exactly the entries that were inserted
-/

namespace Darwin.Ipc

open Darwin.Lib Darwin.Lib.Probing Option
open Function (update update_of_ne update_self)

/-- The fields of a space that the local hash table uses: the size of the table, the field
`ie_index` of its slots, and the entries. -/
structure LocalHash where
  size : ℕ
  index : ℕ → ℕ
  entry : ℕ → IpcEntry

/-- `IH_LOCAL_HASH`. -/
def ihLocalHash (obj size : ℕ) : ℕ := (obj >>> 6) % size

/-- The test of `ipc_hash_local_delete` for an entry at `dindex` with its home at `tindex`, where
`hindex` is the hole. -/
def displaced (hindex dindex tindex : ℕ) : Bool :=
  if dindex < hindex then decide (dindex < tindex) && decide (tindex ≤ hindex)
  else decide (dindex < tindex) || decide (tindex ≤ hindex)

namespace LocalHash

/-- `ipc_hash_local_lookup`: the name and the index of the entry.  The outer option is empty where
the loop does not end within `size` steps. -/
def lookup (s : LocalHash) (obj : ℕ) : Option (Option (ℕ × ℕ)) :=
  let stop := fun hindex => s.index hindex == 0 || (s.entry (s.index hindex)).object == obj
  (probe s.size stop s.size (ihLocalHash obj s.size)).map fun hindex =>
    let index := s.index hindex
    if index = 0 then none else some (portMake index (ieBitsGen (s.entry index).bits), index)

/-- `ipc_hash_local_insert`. -/
def insert (s : LocalHash) (obj index : ℕ) : Option LocalHash :=
  (probe s.size (fun hindex => s.index hindex == 0) s.size (ihLocalHash obj s.size)).map
    fun hindex => { s with index := update s.index hindex index }

/-- The second loop of `ipc_hash_local_delete`, with the hole at `hindex` and the search at
`dindex`. -/
def shiftBack (size : ℕ) (entry : ℕ → IpcEntry) :
    (fuel : ℕ) → (slots : ℕ → ℕ) → (hindex dindex : ℕ) → Option (ℕ → ℕ)
  | 0, _, _, _ => none
  | fuel + 1, slots, hindex, dindex =>
    let dindex := after size dindex
    let index := slots dindex
    if index = 0 then some (update slots hindex 0)
    else if displaced hindex dindex (ihLocalHash (entry index).object size) then
      shiftBack size entry fuel (update slots hindex index) dindex dindex
    else shiftBack size entry fuel slots hindex dindex

/-- `ipc_hash_local_delete`. -/
def delete (s : LocalHash) (obj index : ℕ) : Option LocalHash :=
  match probe s.size (fun hindex => s.index hindex == index) s.size (ihLocalHash obj s.size) with
  | none => none
  | some hindex =>
    match shiftBack s.size s.entry s.size s.index hindex hindex with
    | none => none
    | some slots => some { s with index := slots }

/-- The home of an entry. -/
def home (s : LocalHash) (index : ℕ) : ℕ := ihLocalHash (s.entry index).object s.size

end LocalHash

section Displaced

variable {size h d t : ℕ}

/-- The test asks whether the way from the home of the entry to its slot leads through the hole. -/
theorem displaced_iff (hh : h < size) (hd : d < size) (ht : t < size) (ne : d ≠ h) :
    displaced h d t = true ↔ ahead size t h < ahead size t d := by
  unfold displaced ahead
  split_ifs <;> simp only [Bool.and_eq_true, Bool.or_eq_true, decide_eq_true_eq] <;> omega

end Displaced

namespace LocalHash

/-- The invariant: the entries of `inserted`, with indices between zero and the size, are in the
hash table. -/
structure Inv (s : LocalHash) (inserted : Set ℕ) : Prop where
  probed : Probed s.size s.home s.index inserted none
  bounds : ∀ i ∈ inserted, 0 < i ∧ i < s.size
  pos : 0 < s.size

section Steps

variable {s : LocalHash} {inserted : Set ℕ} {obj index : ℕ}

theorem ihLocalHash_lt (pos : 0 < s.size) : ihLocalHash obj s.size < s.size := Nat.mod_lt _ pos

/-- The table is never full, as slot zero is no entry. -/
theorem Inv.exists_empty (inv : s.Inv inserted) : ∃ z < s.size, s.index z = 0 := by
  refine Probed.exists_empty (Finset.Ioo 0 s.size) inv.probed (fun i mem => ?_) ?_
  · exact Finset.mem_Ioo.mpr (inv.bounds i mem)
  · rw [Nat.card_Ioo]
    have := inv.pos
    omega

/-- Lookup ends, and finds an entry with the object exactly when one is there. -/
theorem Inv.lookup (inv : s.Inv inserted) (obj : ℕ) : ∃ result, s.lookup obj = some result ∧
    (result.isSome = true ↔ ∃ i ∈ inserted, (s.entry i).object = obj) ∧
    ∀ name i, result = some (name, i) → i ∈ inserted ∧ (s.entry i).object = obj ∧
      name = portMake i (ieBitsGen (s.entry i).bits) := by
  obtain ⟨z, hz, empty⟩ := inv.exists_empty
  have start : ihLocalHash obj s.size < s.size := ihLocalHash_lt inv.pos
  obtain ⟨h, hh, found, stopped, first⟩ := probe_found
    (fun hindex => s.index hindex == 0 || (s.entry (s.index hindex)).object == obj) s.size start hz
    (by simp only [empty, beq_self_eq_true, Bool.true_or]) (ahead_lt start hz)
  refine ⟨_, by rw [LocalHash.lookup, found, map_some], ?_, ?_⟩
  · by_cases none : s.index h = 0
    · rw [if_pos none]
      refine ⟨fun absent => absurd absent Bool.false_ne_true, fun ⟨i, mem, same⟩ => ?_⟩
      -- The walk came to an empty slot, which the entry must stand before.
      exfalso
      obtain ⟨p, hp, -, here, path⟩ := inv.probed.found i mem
      have home : s.home i = ihLocalHash obj s.size := by rw [LocalHash.home, same]
      rw [home] at path
      rcases lt_trichotomy (ahead s.size (ihLocalHash obj s.size) h)
        (ahead s.size (ihLocalHash obj s.size) p) with before | at_ | beyond
      · exact path h hh before none
      · rw [eq_of_ahead_eq start hh hp at_, here] at none
        exact inv.probed.nonzero (none ▸ mem)
      · have passed := first p hp beyond
        rw [here, same, beq_self_eq_true, Bool.or_true] at passed
        cases passed
    · rw [if_neg none]
      have object : (s.entry (s.index h)).object = obj := by
        rcases Bool.or_eq_true_iff.mp stopped with zero | same
        · exact absurd (beq_iff_eq.mp zero) none
        · exact beq_iff_eq.mp same
      exact ⟨fun _ => ⟨s.index h, inv.probed.member h hh (by simp) none, object⟩, fun _ => rfl⟩
  · intro name i result
    by_cases none : s.index h = 0
    · rw [if_pos none] at result
      cases result
    rw [if_neg none] at result
    cases result
    refine ⟨inv.probed.member h hh (by simp) none, ?_, rfl⟩
    rcases Bool.or_eq_true_iff.mp stopped with zero | same
    · exact absurd (beq_iff_eq.mp zero) none
    · exact beq_iff_eq.mp same

/-- Insertion ends and keeps the invariant. -/
theorem Inv.insert (inv : s.Inv inserted) (obj : ℕ) (fresh : index ∉ inserted) (nonzero : 0 < index)
    (inside : index < s.size) (object : (s.entry index).object = obj) :
    ∃ s', s.insert obj index = some s' ∧ s'.Inv (Insert.insert index inserted) ∧
      s'.size = s.size ∧ s'.entry = s.entry := by
  obtain ⟨z, hz, empty⟩ := inv.exists_empty
  have start : ihLocalHash obj s.size < s.size := ihLocalHash_lt inv.pos
  obtain ⟨h, hh, found, stopped, first⟩ := probe_found
    (fun hindex => s.index hindex == 0) s.size start hz (beq_iff_eq.mpr empty) (ahead_lt start hz)
  refine ⟨{ s with index := update s.index h index },
    by rw [LocalHash.insert, found, map_some], ⟨?_, ?_, inv.pos⟩, rfl, rfl⟩
  · have home : s.home index = ihLocalHash obj s.size := by rw [LocalHash.home, object]
    refine inv.probed.insert hh (beq_iff_eq.mp stopped) fresh nonzero.ne' (home ▸ start)
      fun x hx before zero => ?_
    rw [home] at before
    exact absurd (first x hx before) (by rw [zero]; exact Bool.true_eq_false_eq_False)
  · rintro i (rfl | mem)
    · exact ⟨nonzero, inside⟩
    · exact inv.bounds i mem

/-- The loop that shifts displaced entries ends, and closes the hole. -/
theorem shiftBack_probed {slots : ℕ → ℕ} {members : Set ℕ} {hole d z fuel : ℕ}
    (probed : Probed s.size s.home slots members (some hole)) (pos : 0 < s.size)
    (settled : Settled s.size s.home slots hole d) (hole_lt : hole < s.size) (hd : d < s.size)
    (full : slots d ≠ 0) (hz : z < s.size) (ne : z ≠ hole) (empty : slots z = 0)
    (enough : ahead s.size d z ≤ fuel) :
    ∃ slots', shiftBack s.size s.entry fuel slots hole d = some slots' ∧
      Probed s.size s.home slots' members none := by
  induction fuel generalizing slots hole d with
  | zero =>
    have here : ahead s.size d z = ahead s.size d d := by rw [ahead_self]; omega
    rw [eq_of_ahead_eq hd hz hd here] at empty
    exact absurd empty full
  | succ fuel ih =>
    have apart := settled.after_ne hole_lt hz ne empty
    have next := after_lt hd
    have closer := ahead_from_after hd hz fun same => full (same ▸ empty)
    rw [shiftBack]
    by_cases stop : slots (after s.size d) = 0
    · rw [if_pos stop]
      exact ⟨_, rfl, probed.close hole_lt hd settled apart stop⟩
    rw [if_neg stop]
    have home_lt : s.home (slots (after s.size d)) < s.size := ihLocalHash_lt pos
    have test := displaced_iff hole_lt next home_lt apart
    by_cases moves : displaced hole (after s.size d)
        (ihLocalHash (s.entry (slots (after s.size d))).object s.size) = true
    · rw [if_pos moves]
      have away : after s.size d ≠ z := fun same => stop (same ▸ empty)
      refine ih (probed.fill hole_lt next apart stop (test.mp moves)) (Settled.start next) next
        next ?_ (Ne.symm away) ?_ (by omega)
      · rw [update_of_ne apart]
        exact stop
      · rw [update_of_ne ne]
        exact empty
    · rw [if_neg moves]
      exact ih probed (settled.step hole_lt hd apart stop fun behind => moves (test.mpr behind))
        hole_lt next stop ne empty (by omega)

/-- Deletion ends and keeps the invariant. -/
theorem Inv.delete (inv : s.Inv inserted) (mem : index ∈ inserted) (obj : ℕ) :
    ∃ s', s.delete obj index = some s' ∧ s'.Inv (inserted \ {index}) ∧
      s'.size = s.size ∧ s'.entry = s.entry := by
  obtain ⟨z, hz, empty⟩ := inv.exists_empty
  have start : ihLocalHash obj s.size < s.size := ihLocalHash_lt inv.pos
  obtain ⟨p, hp, -, here, -⟩ := inv.probed.found index mem
  obtain ⟨h, hh, found, stopped, -⟩ := probe_found
    (fun hindex => s.index hindex == index) s.size start hp (beq_iff_eq.mpr here)
    (ahead_lt start hp)
  have same : s.index h = index := beq_iff_eq.mp stopped
  have full : s.index h ≠ 0 := by
    rw [same]
    exact (inv.bounds index mem).1.ne'
  obtain ⟨slots, shifted, probed⟩ := shiftBack_probed (inv.probed.openHole hh) inv.pos
    (Settled.start hh) hh hh full hz (fun at_ => full (at_ ▸ empty)) empty (ahead_lt hh hz).le
  refine ⟨{ s with index := slots }, ?_, ⟨?_, fun i mem => inv.bounds i mem.1, inv.pos⟩, rfl,
    rfl⟩
  · rw [LocalHash.delete, found]
    dsimp only
    rw [shifted]
  · rw [same] at probed
    exact probed

end Steps

end LocalHash

/-! ## Runs -/

/-- The local hash table of a space and the indices of the entries inserted in it. -/
structure HashState where
  hash : LocalHash
  inserted : Set ℕ

/-- An entry is made and inserted, or an inserted entry is deleted. -/
inductive HashEvent where
  | insert (index : ℕ) (entry : IpcEntry)
  | delete (index : ℕ)

namespace HashState

/-- The invariant of the hash table, for the entries inserted. -/
def Inv (s : HashState) : Prop := s.hash.Inv s.inserted

/-- One operation; nothing where one of its loops does not end. -/
def next (s : HashState) : HashEvent → Option HashState
  | .insert index entry =>
    (LocalHash.insert { s.hash with entry := update s.hash.entry index entry }
      entry.object index).map fun hash => ⟨hash, Insert.insert index s.inserted⟩
  | .delete index =>
    (s.hash.delete (s.hash.entry index).object index).map fun hash =>
      ⟨hash, s.inserted \ {index}⟩

/-- An index is inserted at most once at a time, and only inserted ones are deleted. -/
def Legal (s : HashState) : HashEvent → Prop
  | .insert index _ => 0 < index ∧ index < s.hash.size ∧ index ∉ s.inserted
  | .delete index => index ∈ s.inserted

/-- Writing an entry that is not in the hash table leaves the hash table right. -/
theorem inv_write {s : LocalHash} {inserted : Set ℕ} (inv : s.Inv inserted) {index : ℕ}
    (fresh : index ∉ inserted) (entry : IpcEntry) :
    LocalHash.Inv { s with entry := update s.entry index entry } inserted := by
  refine ⟨inv.probed.congr_home fun i mem => ?_, inv.bounds, inv.pos⟩
  have other : i ≠ index := fun same => fresh (same ▸ mem)
  exact congrArg (fun e : IpcEntry => ihLocalHash e.object s.size) (update_of_ne other _ _)

/-- Every operation ends and keeps the invariant. -/
theorem next_inv {s : HashState} (inv : s.hash.Inv s.inserted) (e : HashEvent) (legal : s.Legal e) :
    ∃ s', s.next e = some s' ∧ s'.hash.Inv s'.inserted := by
  cases e with
  | insert index entry =>
    obtain ⟨pos, inside, fresh⟩ := legal
    obtain ⟨hash, inserts, inv', -⟩ := (inv_write inv fresh entry).insert entry.object
      fresh pos inside (congrArg IpcEntry.object (update_self _ _ _))
    exact ⟨_, by rw [next, inserts, map_some], inv'⟩
  | delete index =>
    obtain ⟨hash, deletes, inv', -⟩ := inv.delete legal (s.hash.entry index).object
    exact ⟨_, by rw [next, deletes, map_some], inv'⟩

end HashState

/-- An empty hash table for a space of `size` slots. -/
def emptyHash (size : ℕ) (entry : ℕ → IpcEntry) : HashState := ⟨⟨size, fun _ => 0, entry⟩, ∅⟩

theorem inv_emptyHash {size : ℕ} (pos : 0 < size) (entry : ℕ → IpcEntry) :
    (emptyHash size entry).hash.Inv (emptyHash size entry).inserted := by
  refine ⟨⟨fun v none => absurd none (Set.notMem_empty v), fun _ _ _ full => absurd rfl full,
    fun _ _ _ _ _ _ full => absurd rfl full, Set.notMem_empty 0,
    fun v none => absurd none (Set.notMem_empty v)⟩, fun v none => absurd none (Set.notMem_empty v),
    pos⟩

/-- After any sequence of insertions and deletions in a table of any size, every operation that is
called ends, and lookup succeeds exactly for the objects of the inserted entries and returns the
name and the index of one that has the object. -/
theorem localHash_exact (size : ℕ) (pos : 0 < size) (entry : ℕ → IpcEntry) (s : HashState)
    (run : Run HashState.next HashState.Legal (emptyHash size entry) s) :
    (∀ e, s.Legal e → ∃ s', s.next e = some s') ∧ ∀ obj, ∃ result, s.hash.lookup obj = some result ∧
        (result.isSome = true ↔ ∃ i ∈ s.inserted, (s.hash.entry i).object = obj) ∧
        ∀ name i, result = some (name, i) → i ∈ s.inserted ∧ (s.hash.entry i).object = obj ∧
          name = portMake i (ieBitsGen (s.hash.entry i).bits) := by
  have inv : s.Inv := by
    refine run.invariant (inv_emptyHash pos entry : HashState.Inv _) ?_
    intro t u e inv legal taken
    obtain ⟨u', taken', inv'⟩ := HashState.next_inv inv e legal
    cases taken.symm.trans taken'
    exact inv'
  refine ⟨fun e legal => ?_, fun obj => inv.lookup obj⟩
  obtain ⟨s', taken, -⟩ := HashState.next_inv inv e legal
  exact ⟨s', taken⟩

/-- An empty table of four slots. -/
def fourHash : HashState := emptyHash 4 fun _ => ⟨0#32, 0, 0⟩

/-- An entry is inserted in a table of four slots, and found. -/
theorem localHash_exact_four : ∃ s : HashState, s.inserted = insert 1 ∅ ∧
    ∃ result, s.hash.lookup 64 = some result ∧ result.isSome = true := by
  have legal : fourHash.Legal (.insert 1 ⟨0#32, 64, 0⟩) :=
    ⟨by decide, by decide, Set.notMem_empty 1⟩
  have run := Run.step (.start : Run HashState.next HashState.Legal fourHash fourHash) legal rfl
  obtain ⟨result, found, some, -⟩ := (localHash_exact 4 (by decide) _ _ run).2 64
  exact ⟨_, rfl, result, found, some.mpr ⟨1, Set.mem_insert _ _, rfl⟩⟩

end Darwin.Ipc
