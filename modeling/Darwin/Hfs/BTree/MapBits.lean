import Darwin.Hfs.BTree.NodeMap

/-!
# The computed size of the node map

`CalcMapBits` computes the number of bits of the node map from the number of nodes alone.  It is the
number that the map records have as long as each map node is needed.  `ExtendBTree` adds one map node
too many when the nodes end exactly where a map record does.

## Main results

* `mapBits_agree` — both numbers agree, over runs, and the calls that keep them equal
* `mapBits_differ` — a call after which they differ
-/

namespace Darwin.Hfs.NodeMap

open List

variable {R : Type*}

/-- `M_MapRecordSize`. -/
def mapRecordSize (nodeSize : ℕ) : ℕ := nodeSize - 14 - 6

/-- `M_HeaderMapRecordSize`. -/
def headerMapRecordSize (nodeSize : ℕ) : ℕ := nodeSize - 120 - 128 - 8

/-- The loop of `CalcMapBits`. -/
def calcMapBitsFrom (nodeSize totalNodes : ℕ) : (fuel mapBits : ℕ) → Option ℕ
  | 0, _ => none
  | fuel + 1, mapBits =>
    if mapBits < totalNodes then
      calcMapBitsFrom nodeSize totalNodes fuel ((mapBits + mapRecordSize nodeSize <<< 3) % 2 ^ 32)
    else some mapBits

/-- `CalcMapBits`. -/
def calcMapBits (t : BTree R) : Option ℕ :=
  calcMapBitsFrom t.nodeSize t.totalNodes (t.totalNodes + 1) (headerMapRecordSize t.nodeSize <<< 3)

/-- The number of bits of the map records of a tree file. -/
def mapBits (t : BTree R) : ℕ := chainBits t.nodes (mapChain t)

/-- A tree file as it is made: consistent, with map records as large as the nodes allow, and with no
map node that the nodes of the file do not need. -/
structure Made (t : BTree R) : Prop where
  consistent : Consistent t
  header : (t.nodes 0).mapSize = headerMapRecordSize t.nodeSize
  map : ∀ n ∈ (mapChain t).tail, (t.nodes n).mapSize = mapRecordSize t.nodeSize
  needed : chainBits t.nodes (mapChain t).dropLast < t.totalNodes

/-- The nodes of the extended file reach past the old map, to the end of a new map record. -/
def EndsRecord (t : BTree R) (setEndOfFork : ℕ → ℕ → Except BTErr ℕ) (newTotalNodes : ℕ) : Prop :=
  let total := grownNodes t setEndOfFork newTotalNodes
  mapBits t < total ∧ 8 * mapRecordSize t.nodeSize ∣ total - mapBits t

/-- A successful call of `ExtendBTree` on a file that does not end where a new map record does. -/
inductive ExtendStep : BTree R → BTree R → Prop where
  | extend {t t' : BTree R} {io : FetchErrors R} {setEndOfFork : ℕ → ℕ → Except BTErr ℕ}
      {newTotalNodes : ℕ} (grows : Grows setEndOfFork)
      (apart : ¬ EndsRecord t setEndOfFork newTotalNodes)
      (extended : t.extendBTree io setEndOfFork newTotalNodes = (.ok (), t')) : ExtendStep t t'

section Sizes

variable {t t' : BTree R} {chain : List ℕ} {nodeSize total b k fuel : ℕ}

/-- The loop adds map records as long as they are needed. -/
theorem calcMapBitsFrom_eq (enough : total ≤ b + k * (8 * mapRecordSize nodeSize))
    (needed : k ≠ 0 → b + (k - 1) * (8 * mapRecordSize nodeSize) < total)
    (short : b + k * (8 * mapRecordSize nodeSize) < 2 ^ 32) (fueled : k < fuel) :
    calcMapBitsFrom nodeSize total fuel b = some (b + k * (8 * mapRecordSize nodeSize)) := by
  obtain ⟨fuel, rfl⟩ := Nat.exists_eq_succ_of_ne_zero (Nat.ne_zero_of_lt fueled)
  induction k generalizing b fuel with
  | zero =>
    rw [zero_mul, add_zero] at enough ⊢
    rw [calcMapBitsFrom, if_neg (not_lt.mpr enough)]
  | succ k ih =>
    have more := needed k.succ_ne_zero
    rw [Nat.add_sub_cancel] at more
    rw [Nat.succ_mul] at enough short ⊢
    obtain ⟨fuel, rfl⟩ := Nat.exists_eq_succ_of_ne_zero (n := fuel) (by omega)
    rw [calcMapBitsFrom, if_pos (by omega), shiftLeft_three, Nat.mod_eq_of_lt (by omega),
      ih (by omega) ?_ (by omega) fuel (by omega)]
    · congr 1
      omega
    intro some_left
    obtain ⟨k, rfl⟩ := Nat.exists_eq_succ_of_ne_zero some_left
    rw [Nat.succ_mul] at more
    rw [Nat.succ_sub_one]
    omega

/-- A consistent tree file whose map records are as large as the nodes allow. -/
structure Sized (t : BTree R) (chain : List ℕ) : Prop where
  mapped : Mapped t chain
  header : (t.nodes 0).mapSize = headerMapRecordSize t.nodeSize
  map : ∀ n ∈ chain.tail, (t.nodes n).mapSize = mapRecordSize t.nodeSize

theorem Sized.eq_cons (sized : Sized t chain) : chain = 0 :: chain.tail :=
  eq_cons_of_mem_head? sized.mapped.head

theorem Sized.chainBits_eq (sized : Sized t chain) (rest : List ℕ) (part : rest ⊆ chain.tail) :
    chainBits t.nodes (0 :: rest) = headerMapRecordSize t.nodeSize <<< 3 +
      rest.length * (8 * mapRecordSize t.nodeSize) := by
  rw [chainBits_cons, recordBits, sized.header, shiftLeft_three,
    NodeMap.chainBits_eq fun m mem => sized.map m (part mem)]

/-- The computed number of bits is that of the map if and only if the last map node is needed. -/
theorem Sized.calcMapBits_iff (sized : Sized t chain) :
    calcMapBits t = some (chainBits t.nodes chain) ↔
      chainBits t.nodes chain.dropLast < t.totalNodes := by
  have mapped := sized.mapped
  have short := mapped.chainBits_lt
  have covers := mapped.covers
  have tight := mapped.tight
  have length := mapped.length_le
  have positive : 0 < mapRecordSize t.nodeSize := by
    have large := mapped.nodeSize_ge
    rw [mapRecordSize]
    omega
  have shape := sized.eq_cons
  have part := sized.chainBits_eq
  generalize chain.tail = rest at shape part
  subst shape
  have whole := part rest (List.Subset.refl rest)
  rcases eq_nil_or_concat rest with rfl | ⟨rest, last, rfl⟩
  · rw [whole, length_nil] at covers short
    have total : 0 < t.totalNodes := mapped.below 0 mem_cons_self
    refine iff_of_true ?_ total
    rw [whole, calcMapBits, length_nil]
    exact calcMapBitsFrom_eq covers (absurd rfl) (by omega) (by omega)
  · rw [concat_eq_append] at *
    have before := part rest (subset_append_left rest [last])
    rw [← cons_append, dropLast_concat] at tight ⊢
    rw [length_append, length_singleton] at whole
    rw [length_cons, length_append, length_singleton] at length
    rw [cons_append] at *
    rw [before] at tight ⊢
    rw [whole] at covers short ⊢
    rw [calcMapBits]
    constructor
    · intro computed
      by_contra not_needed
      -- The nodes end where the record before the last one does, and there the loop stops.
      have ends : t.totalNodes = headerMapRecordSize t.nodeSize <<< 3 +
          rest.length * (8 * mapRecordSize t.nodeSize) := by omega
      rw [Nat.succ_mul] at short computed
      rw [calcMapBitsFrom_eq (k := rest.length) ends.le ?_ (by omega) (by omega)] at computed
      · have same := Option.some.inj computed
        omega
      · intro some_left
        rw [ends]
        exact Nat.add_lt_add_left (Nat.mul_lt_mul_of_pos_right (by omega) (by omega)) _
    · intro needed
      exact calcMapBitsFrom_eq covers (fun _ => needed) (by omega) (by omega)

theorem Made.sized (made : Made t) : Sized t (mapChain t) :=
  ⟨made.consistent, made.header, made.map⟩

/-- Extending a file keeps the sizes of the map records, and each map node is needed unless the nodes
end where a new record does. -/
theorem Made.extends {added : List ℕ} (made : Made t) (spec : Extends t t' (mapChain t) added) :
    Sized t' (mapChain t ++ added) ∧
      (chainBits t'.nodes (mapChain t ++ added).dropLast < t'.totalNodes ↔
        ¬ (mapBits t < t'.totalNodes ∧
          8 * mapRecordSize t.nodeSize ∣ t'.totalNodes - mapBits t)) := by
  have mapped : Mapped t (mapChain t) := made.consistent
  have nodeSize : t'.nodeSize = t.nodeSize := by rw [spec.fields]
  have zero : 0 ∈ mapChain t := mem_of_mem_head? mapped.head
  have record : t.nodeSize - 6 - 14 = mapRecordSize t.nodeSize := by
    rw [mapRecordSize]
    omega
  have count := spec.count
  rw [record] at count
  have new := spec.new
  rw [record] at new
  refine ⟨⟨spec.mapped, ?_, ?_⟩, ?_⟩
  · rw [spec.old 0 zero, nodeSize, made.header]
  · intro n mem
    rw [tail_append_of_ne_nil (ne_nil_of_mem zero)] at mem
    rw [nodeSize]
    rcases mem_append.mp mem with old | added_node
    · rw [spec.old n (mem_of_mem_tail old), made.map n old]
    · exact new n added_node
  · rcases eq_nil_or_concat added with rfl | ⟨rest, last, rfl⟩
    · have none_added : ¬ t'.totalNodes > chainBits t.nodes (mapChain t) := by
        intro more
        rw [if_pos more] at count
        cases count
      refine iff_of_true ?_ fun past => none_added past.1
      rw [append_nil, chainBits_congr fun n mem => spec.old n (mem_of_mem_dropLast mem)]
      exact made.needed.trans_le spec.grows
    · rw [concat_eq_append] at *
      have more : t'.totalNodes > chainBits t.nodes (mapChain t) := by
        by_contra none_added
        rw [if_neg none_added, length_append] at count
        cases count
      rw [if_pos more, length_append, length_singleton, Nat.add_right_cancel_iff,
        Nat.div_div_eq_div_mul] at count
      rw [← append_assoc, dropLast_concat, chainBits_append, chainBits_congr spec.old,
        chainBits_eq fun n mem => new n (mem_append_left _ mem), count, mapBits,
        Nat.dvd_iff_mod_eq_zero]
      have division := Nat.div_add_mod (t'.totalNodes - chainBits t.nodes (mapChain t))
        (8 * mapRecordSize t.nodeSize)
      rw [mul_comm] at division
      omega

end Sizes

section Runs

variable {start t t' : BTree R}

theorem Made.step (made : Made t) (step : ExtendStep t t') : Made t' := by
  obtain ⟨grows, apart, extended⟩ := step
  obtain ⟨added, spec, total⟩ := extendBTree_spec made.consistent grows extended
  obtain ⟨sized, needed⟩ := made.extends spec
  have chain := spec.mapped.mapChain_eq
  rw [EndsRecord, ← total] at apart
  rw [← chain] at sized needed
  exact ⟨sized.mapped, sized.header, sized.map, needed.mpr apart⟩

/-- From a tree file as it is made, the map has the size that `CalcMapBits` computes after every run
of successful calls of `ExtendBTree` whose new number of nodes does not end a new map record.  The
next call keeps this if and only if its number does not either. -/
theorem mapBits_agree (made : Made start) (run : Relation.ReflTransGen ExtendStep start t) :
    calcMapBits t = some (mapBits t) ∧ ∀ io setEndOfFork newTotalNodes t', Grows setEndOfFork →
      t.extendBTree io setEndOfFork newTotalNodes = (.ok (), t') →
        (calcMapBits t' = some (mapBits t') ↔ ¬ EndsRecord t setEndOfFork newTotalNodes) := by
  have made : Made t := by
    induction run with
    | refl => exact made
    | tail _ step ih => exact ih.step step
  refine ⟨made.sized.calcMapBits_iff.mpr made.needed, ?_⟩
  intro io setEndOfFork newTotalNodes t' grows extended
  obtain ⟨added, spec, total⟩ := extendBTree_spec made.consistent grows extended
  obtain ⟨sized, needed⟩ := made.extends spec
  rw [EndsRecord, ← total, mapBits, spec.mapped.mapChain_eq, sized.calcMapBits_iff, needed]

theorem smallFile_made : Made smallFile := by
  have chain : mapChain smallFile = [0] := rfl
  refine ⟨smallFile_consistent, rfl, ?_, ?_⟩
  · rw [chain]
    exact forall_mem_nil _
  · rw [chain]
    decide

/-- A callback that extends the file as far as it must. -/
def extendToMinimum (eof minEOF : ℕ) : Except BTErr ℕ :=
  if eof ≤ minEOF ∧ minEOF < 2 ^ 32 then .ok minEOF else .error (.ioErr 0)

theorem grows_extendToMinimum : Grows extendToMinimum := by
  intro eof minEOF new called
  rw [extendToMinimum] at called
  split at called
  · rename_i possible
    cases called
    exact possible
  · cases called

/-- A file of four nodes is extended to 5000, which takes one map node. -/
theorem mapBits_agree_small :
    ∃ t, smallFile.extendBTree (fun _ _ => none) extendToMinimum 5000 = (.ok (), t) ∧
      calcMapBits t = some (mapBits t) := by
  have returned : (smallFile.extendBTree (fun _ _ => none) extendToMinimum 5000).1 = .ok () := by
    decide +kernel
  have apart : ¬ EndsRecord smallFile extendToMinimum 5000 := by
    unfold EndsRecord
    decide +kernel
  have extended := Prod.ext returned rfl
  exact ⟨_, extended, (mapBits_agree smallFile_made
    (.single (.extend grows_extendToMinimum apart extended))).1⟩

/-- The same file is extended to the nodes that one map node covers, and gets two. -/
theorem mapBits_differ :
    ∃ t, smallFile.extendBTree (fun _ _ => none) extendToMinimum 5984 = (.ok (), t) ∧
      Made smallFile ∧ Grows extendToMinimum ∧ calcMapBits t ≠ some (mapBits t) := by
  have returned : (smallFile.extendBTree (fun _ _ => none) extendToMinimum 5984).1 = .ok () := by
    decide +kernel
  refine ⟨_, Prod.ext returned rfl, smallFile_made, grows_extendToMinimum, ?_⟩
  decide +kernel

end Runs

end Darwin.Hfs.NodeMap
