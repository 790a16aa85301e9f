import Darwin.Hfs.BTree.Allocate

/-!
# The node-map invariant

The map records of a tree file, read one after the other along the links of the map nodes, form one
bit map of the nodes.  A tree file is consistent when the map covers its nodes, when no bit past them
is set, and when the free node count is the number of clear bits.

## Main results

* `allocateNode_spec`, `freeNode_spec`, `extendBTree_spec` — what one successful call does
* `nodeMap_invariant` — consistency along every run, with what every further call does
-/

namespace Darwin.Hfs.NodeMap

open List Darwin.WordBitmap BTree Finset

variable {R : Type*}

/-! ## The map as one sequence of bits -/

section Chain

variable {nodes nodes' : ℕ → Node R} {chain pre post : List ℕ} {n b : ℕ}

/-- The number of bits of the map record of a node. -/
def recordBits (nodes : ℕ → Node R) (n : ℕ) : ℕ :=
  8 * (nodes n).mapSize

/-- The number of bits of the map records of a list of nodes. -/
def chainBits (nodes : ℕ → Node R) (chain : List ℕ) : ℕ :=
  (chain.map (recordBits nodes)).sum

/-- A bit of the map records of a list of nodes, read one after the other. -/
def chainBit (nodes : ℕ → Node R) : (chain : List ℕ) → (b : ℕ) → Bool
  | [], _ => false
  | n :: rest, b =>
    if b < recordBits nodes n then bit (nodes n).mapWords b
    else chainBit nodes rest (b - recordBits nodes n)

/-- Each node links to the next and the last to none. -/
def Linked (nodes : ℕ → Node R) : (chain : List ℕ) → Prop
  | [] => True
  | [n] => (nodes n).fLink = 0
  | n :: m :: rest => (nodes n).fLink = m ∧ m ≠ 0 ∧ Linked nodes (m :: rest)

@[simp] theorem chainBits_nil : chainBits nodes [] = 0 := rfl

@[simp] theorem chainBits_cons :
    chainBits nodes (n :: chain) = recordBits nodes n + chainBits nodes chain := by
  simp [chainBits]

@[simp] theorem chainBits_append :
    chainBits nodes (pre ++ post) = chainBits nodes pre + chainBits nodes post := by
  simp [chainBits]

/-- Records of one size. -/
theorem chainBits_eq {size : ℕ} (sizes : ∀ m ∈ chain, (nodes m).mapSize = size) :
    chainBits nodes chain = chain.length * (8 * size) := by
  have constant : ∀ x ∈ chain.map (recordBits nodes), x = 8 * size := by
    intro x mem
    obtain ⟨m, inside, rfl⟩ := mem_map.mp mem
    rw [recordBits, sizes m inside]
  rw [chainBits, sum_eq_card_nsmul _ _ constant, length_map, smul_eq_mul]

theorem chainBit_append :
    chainBit nodes (pre ++ post) b =
      if b < chainBits nodes pre then chainBit nodes pre b
      else chainBit nodes post (b - chainBits nodes pre) := by
  induction pre generalizing b with
  | nil => simp
  | cons n pre ih =>
    rw [cons_append, chainBit, chainBit, ih, chainBits_cons]
    by_cases inside : b < recordBits nodes n
    · rw [if_pos inside, if_pos (by omega), if_pos inside]
    · rw [if_neg inside, if_neg inside]
      by_cases before : b - recordBits nodes n < chainBits nodes pre
      · rw [if_pos before, if_pos (by omega)]
      · rw [if_neg before, if_neg (by omega), Nat.sub_sub]

theorem chainBit_of_le (beyond : chainBits nodes chain ≤ b) : chainBit nodes chain b = false := by
  induction chain generalizing b with
  | nil => rfl
  | cons n chain ih =>
    rw [chainBits_cons] at beyond
    rw [chainBit, if_neg (by omega)]
    exact ih (by omega)

/-- A bit of the record in the middle of a list of nodes. -/
theorem chainBit_mid {k : ℕ} (inside : k < recordBits nodes n) :
    chainBit nodes (pre ++ n :: post) (chainBits nodes pre + k) = bit (nodes n).mapWords k := by
  rw [chainBit_append, if_neg (by omega), Nat.add_sub_cancel_left, chainBit, if_pos inside]

theorem Linked.fLink_last (linked : Linked nodes (pre ++ [n])) : (nodes n).fLink = 0 := by
  induction pre with
  | nil => exact linked
  | cons m pre ih =>
    cases pre with
    | nil => exact linked.2.2
    | cons k pre => exact ih linked.2.2

theorem Linked.fLink_next {m : ℕ} (linked : Linked nodes (pre ++ n :: m :: post)) :
    (nodes n).fLink = m ∧ m ≠ 0 := by
  induction pre with
  | nil => exact ⟨linked.1, linked.2.1⟩
  | cons k pre ih =>
    cases pre with
    | nil => exact ih linked.2.2
    | cons l pre => exact ih linked.2.2

/-- Two families of nodes with the same links and record sizes. -/
structure SameShape (nodes nodes' : ℕ → Node R) (chain : List ℕ) : Prop where
  fLink : ∀ n ∈ chain, (nodes' n).fLink = (nodes n).fLink
  kind : ∀ n ∈ chain, (nodes' n).kind = (nodes n).kind
  mapSize : ∀ n ∈ chain, (nodes' n).mapSize = (nodes n).mapSize

theorem SameShape.tail (same : SameShape nodes nodes' (n :: chain)) :
    SameShape nodes nodes' chain where
  fLink m mem := same.fLink m (mem_cons_of_mem n mem)
  kind m mem := same.kind m (mem_cons_of_mem n mem)
  mapSize m mem := same.mapSize m (mem_cons_of_mem n mem)

theorem chainBits_congr (size : ∀ n ∈ chain, (nodes' n).mapSize = (nodes n).mapSize) :
    chainBits nodes' chain = chainBits nodes chain := by
  rw [chainBits, chainBits]
  congr 1
  exact map_congr_left fun n mem => by rw [recordBits, recordBits, size n mem]

theorem SameShape.linked (same : SameShape nodes nodes' chain) (linked : Linked nodes chain) :
    Linked nodes' chain := by
  induction chain with
  | nil => trivial
  | cons n chain ih =>
    cases chain with
    | nil => exact (same.fLink n mem_cons_self).trans linked
    | cons m chain =>
      exact ⟨(same.fLink n mem_cons_self).trans linked.1, linked.2.1,
        ih same.tail linked.2.2⟩

theorem chainBit_congr (size : ∀ n ∈ chain, (nodes' n).mapSize = (nodes n).mapSize)
    (words : ∀ n ∈ chain, (nodes' n).mapWords = (nodes n).mapWords) :
    chainBit nodes' chain b = chainBit nodes chain b := by
  induction chain generalizing b with
  | nil => rfl
  | cons n chain ih =>
    rw [chainBit, chainBit, recordBits, recordBits, size n mem_cons_self,
      words n mem_cons_self, ih (fun m mem => size m (mem_cons_of_mem n mem))
        fun m mem => words m (mem_cons_of_mem n mem)]

/-- Writing one bit of one record writes one bit of the map. -/
theorem chainBit_write {k : ℕ} {value : Bool} (distinct : (pre ++ n :: post).Nodup)
    (inside : k < recordBits nodes n) (size : (nodes' n).mapSize = (nodes n).mapSize)
    (others : ∀ m, m ≠ n → nodes' m = nodes m)
    (writes : WritesRange value (nodes n).mapWords (nodes' n).mapWords k 1) :
    chainBit nodes' (pre ++ n :: post) b =
      if b = chainBits nodes pre + k then value else chainBit nodes (pre ++ n :: post) b := by
  rw [nodup_append, nodup_cons] at distinct
  obtain ⟨-, ⟨notPost, -⟩, apart⟩ := distinct
  have samePre : ∀ m ∈ pre, nodes' m = nodes m := fun m mem =>
    others m (apart m mem n mem_cons_self)
  have samePost : ∀ m ∈ post, nodes' m = nodes m := fun m mem =>
    others m fun same => notPost (same ▸ mem)
  have preBits : chainBits nodes' pre = chainBits nodes pre :=
    chainBits_congr fun m mem => by rw [samePre m mem]
  have sameBit (l : List ℕ) (same : ∀ m ∈ l, nodes' m = nodes m) (c : ℕ) :
      chainBit nodes' l c = chainBit nodes l c :=
    chainBit_congr (fun m mem => by rw [same m mem]) fun m mem => by
      rw [same m mem]
  have bits : recordBits nodes' n = recordBits nodes n := by rw [recordBits, recordBits, size]
  rw [chainBit_append, chainBit_append, preBits, sameBit pre samePre]
  by_cases before : b < chainBits nodes pre
  · rw [if_pos before, if_pos before, if_neg (by omega)]
  · rw [if_neg before, if_neg before, chainBit, chainBit, bits, sameBit post samePost,
      writes (b - chainBits nodes pre)]
    by_cases record : b - chainBits nodes pre < recordBits nodes n
    · rw [if_pos record, if_pos record]
      exact if_congr (by omega) rfl rfl
    · rw [if_neg record, if_neg record, if_neg (by omega)]

end Chain

/-! ## Consistent tree files -/

section Consistent

/-- The map nodes from `n` on, along the forward links. -/
def chainFrom (nodes : ℕ → Node R) : (fuel n : ℕ) → List ℕ
  | 0, _ => []
  | fuel + 1, n =>
    n :: if (nodes n).fLink = 0 then [] else chainFrom nodes fuel (nodes n).fLink

theorem chainFrom_eq {nodes : ℕ → Node R} {n : ℕ} {rest : List ℕ} {fuel : ℕ}
    (linked : Linked nodes (n :: rest)) (enough : rest.length < fuel) :
    chainFrom nodes fuel n = n :: rest := by
  obtain ⟨fuel, rfl⟩ := Nat.exists_eq_succ_of_ne_zero (Nat.ne_zero_of_lt enough)
  induction rest generalizing n fuel with
  | nil =>
    have last : (nodes n).fLink = 0 := linked
    rw [chainFrom, if_pos last]
  | cons m rest ih =>
    obtain ⟨fuel, rfl⟩ : ∃ k, fuel = k + 1 :=
      Nat.exists_eq_succ_of_ne_zero fun zero => by simp [zero] at enough
    rw [chainFrom, linked.1, if_neg linked.2.1, ih linked.2.2 fuel (by simpa using enough)]

/-- The number of clear bits of the map among the nodes of the file. -/
def clearNodes (nodes : ℕ → Node R) (chain : List ℕ) (totalNodes : ℕ) : ℕ :=
  {b ∈ Finset.range totalNodes | chainBit nodes chain b = false}.card

/-- A consistent tree file, whose map records are those of `chain`. -/
structure Mapped (t : BTree R) (chain : List ℕ) : Prop where
  head : chain.head? = some 0
  header : (t.nodes 0).kind = .header
  map : ∀ n ∈ chain.tail, (t.nodes n).kind = .map
  linked : Linked t.nodes chain
  nodup : chain.Nodup
  below : ∀ n ∈ chain, n < t.totalNodes
  size_pos : ∀ n ∈ chain, 0 < (t.nodes n).mapSize
  size_even : ∀ n ∈ chain, (t.nodes n).mapSize % 2 = 0
  size_lt : ∀ n ∈ chain, (t.nodes n).mapSize < t.nodeSize
  /-- The map covers the nodes of the file. -/
  covers : t.totalNodes ≤ chainBits t.nodes chain
  /-- The last record is needed: it starts at or before the end of the nodes. -/
  tight : chainBits t.nodes chain.dropLast ≤ t.totalNodes
  unused : ∀ b, t.totalNodes ≤ b → chainBit t.nodes chain b = false
  eof : t.fcbEOF / t.nodeSize = t.totalNodes
  eof_lt : t.fcbEOF < 2 ^ 32
  nodeSize_ge : 512 ≤ t.nodeSize
  nodeSize_lt : t.nodeSize < 2 ^ 16
  nodeSize_even : t.nodeSize % 2 = 0
  freeNodes : t.freeNodes = clearNodes t.nodes chain t.totalNodes

/-- The nodes that hold the map. -/
def mapChain (t : BTree R) : List ℕ :=
  chainFrom t.nodes t.totalNodes 0

variable {t : BTree R} {chain pre post : List ℕ} {io : FetchErrors R} {n : ℕ}

variable (mapped : Mapped t chain)

include mapped

theorem Mapped.length_le : chain.length ≤ t.totalNodes := by
  have inRange : chain.toFinset ⊆ range t.totalNodes := by
    intro n mem
    rw [mem_toFinset] at mem
    exact Finset.mem_range.mpr (mapped.below n mem)
  have card := Finset.card_le_card inRange
  rwa [toFinset_card_of_nodup mapped.nodup, card_range] at card

theorem Mapped.mapChain_eq : mapChain t = chain := by
  have length := mapped.length_le
  have head := mapped.head
  cases chain with
  | nil => cases head
  | cons n rest =>
    cases head
    exact chainFrom_eq mapped.linked length

theorem Mapped.totalNodes_le : t.totalNodes ≤ 2 ^ 23 := by
  rw [← mapped.eof]
  calc
    t.fcbEOF / t.nodeSize ≤ 2 ^ 32 / 512 :=
      Nat.div_le_div mapped.eof_lt.le mapped.nodeSize_ge (by decide)
    _ = 2 ^ 23 := by norm_num

/-- The whole map is far shorter than `2 ^ 32` bits. -/
theorem Mapped.chainBits_lt : chainBits t.nodes chain < 2 ^ 24 := by
  have total := mapped.totalNodes_le
  have nonempty : chain ≠ [] := by
    intro empty
    have head := mapped.head
    rw [empty] at head
    cases head
  have last := mapped.size_lt _ (getLast_mem nonempty)
  have nodeSize := mapped.nodeSize_lt
  have tight := mapped.tight
  rw [← dropLast_append_getLast nonempty, chainBits_append, chainBits_cons, chainBits_nil,
    recordBits]
  omega

omit mapped

/-- `GetMapNode` walks the chain of map nodes. -/
theorem Mapped.getMapNode (mapped : Mapped t (pre ++ n :: post)) :
    t.getMapNode io pre.getLast? = match io t n with
      | some e => .error e
      | none => .ok n := by
  have below : ¬ n ≥ t.totalNodes := not_le.mpr (mapped.below n (by simp))
  rcases eq_nil_or_concat pre with rfl | ⟨pre, m, rfl⟩
  · cases mapped.head
    have header := mapped.header
    rw [List.getLast?_nil, getMapNode, getNode, if_neg below]
    cases io t 0 with
    | some e => rfl
    | none => simp only [header, if_true]
  · rw [concat_eq_append, append_assoc, singleton_append] at mapped
    obtain ⟨next, nonzero⟩ := mapped.linked.fLink_next
    have kind : (t.nodes n).kind = .map := mapped.map n (by cases pre <;> simp)
    rw [concat_eq_append, List.getLast?_append_of_ne_nil _ (cons_ne_nil _ _),
      List.getLast?_singleton, getMapNode, next, if_neg nonzero, getNode,
      if_neg below]
    cases io t n with
    | some e => rfl
    | none => simp only [kind, if_true]

/-- After the last map node there is no other. -/
theorem Mapped.getMapNode_last (mapped : Mapped t chain) :
    t.getMapNode io chain.getLast? = .error .fsBTNoMoreMapNodesErr := by
  rcases eq_nil_or_concat chain with rfl | ⟨pre, m, rfl⟩
  · cases mapped.head
  · rw [concat_eq_append] at mapped ⊢
    rw [List.getLast?_append_of_ne_nil _ (cons_ne_nil _ _), List.getLast?_singleton,
      BTree.getMapNode, mapped.linked.fLink_last, if_pos rfl]

end Consistent

/-! ## Allocating a node -/

section Allocate

variable {t t' : BTree R} {chain pre post : List ℕ} {n : ℕ}

/-- The scan stops at the first word with a clear bit, or at the last word. -/
theorem scanMapRecord_spec {words : ℕ → BitVec 16} {size pos : ℕ} (positive : 0 < size) :
    pos < scanMapRecord words size pos ∧ scanMapRecord words size pos ≤ pos + size ∧
      (∀ q, pos ≤ q → q + 1 < scanMapRecord words size pos → words q = 0xFFFF#16) ∧
      (words (scanMapRecord words size pos - 1) = 0xFFFF#16 →
        scanMapRecord words size pos = pos + size) := by
  induction size generalizing pos with
  | zero => exact absurd positive (lt_irrefl 0)
  | succ size ih =>
    rw [scanMapRecord]
    by_cases free : words pos = 0xFFFF#16
    · rw [if_neg (not_not.mpr free)]
      rcases Nat.eq_zero_or_pos size with rfl | more
      · rw [scanMapRecord]
        refine ⟨by omega, by omega, fun q lower upper => by omega, fun _ => rfl⟩
      · obtain ⟨after, upper, full, stop⟩ := @ih (pos + 1) more
        refine ⟨by omega, by omega, fun q lower before => ?_, fun last => by
          rw [stop last]; omega⟩
        rcases eq_or_lt_of_le lower with rfl | later
        · exact free
        · exact full q later before
    · rw [if_pos free]
      refine ⟨by omega, by omega, fun q lower upper => by omega, fun last => ?_⟩
      exact absurd last free

theorem getMsbD_ones {i : ℕ} (inside : i < 16) : (0xFFFF#16).getMsbD i = true := by
  interval_cases i <;> decide

variable {k : ℕ} {word : BitVec 16}

/-- The masks of `AllocateNode`, obtained by shifting the high bit. -/
theorem and_mask_eq_zero (word : BitVec 16) (inside : k < 16) :
    word &&& (0x8000#16 >>> k) = 0#16 ↔ word.getMsbD k = false :=
  and_highBit_shift_eq_zero (w := 16) (by decide) inside word

theorem getMsbD_mask (inside : k < 16) (i : ℕ) :
    (0x8000#16 >>> k).getMsbD i = decide (i = k) :=
  getMsbD_highBit_shift (w := 16) (by decide) inside i

/-- The search of a word finds its first clear bit and the mask of that bit. -/
theorem findFreeBit_spec {bitOffset : ℕ} (bound : bitOffset ≤ 15)
    (above : ∀ i < 15 - bitOffset, word.getMsbD i = true)
    (free : ∃ i < 16, word.getMsbD i = false) :
    ∃ k < 16, findFreeBit word bitOffset (0x8000#16 >>> (15 - bitOffset)) =
        (15 - k, 0x8000#16 >>> k) ∧
      word.getMsbD k = false ∧ ∀ i < k, word.getMsbD i = true := by
  induction bitOffset with
  | zero =>
    obtain ⟨i, inside, clear⟩ := free
    have last : i = 15 := by
      by_contra other
      rw [above i (by omega)] at clear
      cases clear
    subst last
    exact ⟨15, by omega, rfl, clear, above⟩
  | succ bitOffset ih =>
    rw [findFreeBit]
    by_cases clear : word.getMsbD (15 - (bitOffset + 1)) = false
    · rw [if_pos ((and_mask_eq_zero word (by omega)).mpr clear)]
      exact ⟨15 - (bitOffset + 1), by omega, by congr 1; omega, clear, above⟩
    · rw [if_neg fun zero => clear ((and_mask_eq_zero word (by omega)).mp zero)]
      have next : (0x8000#16 >>> (15 - (bitOffset + 1))) >>> 1 =
          0x8000#16 >>> (15 - bitOffset) := by
        rw [← BitVec.shiftRight_add]
        congr 1
        omega
      rw [next]
      refine ih (by omega) fun i below => ?_
      rcases lt_or_ge i (15 - (bitOffset + 1)) with earlier | later
      · exact above i earlier
      · have here : i = 15 - (bitOffset + 1) := by omega
        rw [here]
        exact Bool.not_eq_false _ ▸ clear

theorem bit_of_full_word {words : ℕ → BitVec 16} (full : words (k / 16) = 0xFFFF#16) :
    bit words k = true := by
  rw [bit, full]
  exact getMsbD_ones (Nat.mod_lt k (by decide))

theorem exists_clear_of_ne (free : word ≠ 0xFFFF#16) :
    ∃ i < 16, word.getMsbD i = false := by
  by_contra none
  push Not at none
  apply free
  apply BitVec.eq_of_getMsbD_eq
  intro i inside
  rw [getMsbD_ones inside]
  exact Bool.not_eq_false _ ▸ none i inside

/-- The loop of `AllocateNode` over the map records ends at the first word of the map with a clear
bit, unless a map node cannot be fetched or no bit of the map is clear. -/
theorem Mapped.findFreeWord (mapped : Mapped t chain) (io : FetchErrors R) {fuel : ℕ} {suf : List ℕ}
    (split : chain = pre ++ suf) (enough : suf.length < fuel)
    (set : ∀ b < chainBits t.nodes pre, chainBit t.nodes chain b = true) :
    (∃ before n after pos, t.findFreeWord io fuel pre.getLast? (chainBits t.nodes pre) =
        .ok (n, pos, chainBits t.nodes before) ∧ chain = before ++ n :: after ∧
      16 * pos + 16 ≤ recordBits t.nodes n ∧ (t.nodes n).mapWords pos ≠ 0xFFFF#16 ∧
      ∀ b < chainBits t.nodes before + 16 * pos, chainBit t.nodes chain b = true) ∨
    ∃ e, t.findFreeWord io fuel pre.getLast? (chainBits t.nodes pre) = .error e ∧
      ((∃ m ∈ chain, io t m = some e) ∨
        e = .fsBTNoMoreMapNodesErr ∧ ∀ b < chainBits t.nodes chain,
          chainBit t.nodes chain b = true) := by
  induction fuel generalizing pre suf with
  | zero => exact absurd enough (Nat.not_lt_zero _)
  | succ fuel ih =>
    cases suf with
    | nil =>
      rw [append_nil] at split
      subst split
      refine .inr ⟨.fsBTNoMoreMapNodesErr, ?_, .inr ⟨rfl, set⟩⟩
      rw [findFreeWord, mapped.getMapNode_last]
    | cons n post =>
      subst split
      rw [findFreeWord, mapped.getMapNode]
      cases fetch : io t n with
      | some e => exact .inr ⟨e, rfl, .inl ⟨n, by simp, fetch⟩⟩
      | none =>
        dsimp only
        have mem : n ∈ pre ++ n :: post := by simp
        have positive := mapped.size_pos n mem
        have even := mapped.size_even n mem
        have bits : recordBits t.nodes n = 8 * (t.nodes n).mapSize := rfl
        have short := mapped.chainBits_lt
        rw [chainBits_append, chainBits_cons] at short
        have halved : (t.nodes n).mapSize >>> 1 = (t.nodes n).mapSize / 2 :=
          Nat.shiftRight_eq_div_pow _ 1
        have eight : (t.nodes n).mapSize <<< 3 = 8 * (t.nodes n).mapSize := by
          rw [Nat.shiftLeft_eq]
          omega
        rw [halved, eight]
        have words : 0 < (t.nodes n).mapSize / 2 := by omega
        obtain ⟨lower, upper, full, stop⟩ :=
          @scanMapRecord_spec (t.nodes n).mapWords ((t.nodes n).mapSize / 2) 0 words
        generalize scanned : scanMapRecord (t.nodes n).mapWords
          ((t.nodes n).mapSize / 2) 0 = stopped at lower upper full stop ⊢
        -- The bits of the words that the scan has passed are set.
        have passed : ∀ b < chainBits t.nodes pre + 16 * (stopped - 1),
            chainBit t.nodes (pre ++ n :: post) b = true := by
          intro b below
          rcases lt_or_ge b (chainBits t.nodes pre) with earlier | later
          · exact set b earlier
          · obtain ⟨k, rfl⟩ := Nat.exists_eq_add_of_le later
            rw [chainBit_mid (by omega)]
            exact bit_of_full_word (full (k / 16) (Nat.zero_le _) (by omega))
        by_cases free : (t.nodes n).mapWords (stopped - 1) = 0xFFFF#16
        · rw [if_neg (not_not.mpr free)]
          have whole := stop free
          have next : (chainBits t.nodes pre + 8 * (t.nodes n).mapSize) % 2 ^ 32 =
              chainBits t.nodes (pre ++ [n]) := by
            rw [chainBits_append, chainBits_cons, chainBits_nil, bits]
            omega
          have here : (pre ++ [n]).getLast? = some n := by simp
          rw [next, ← here]
          refine @ih (pre ++ [n]) post (by simp) (by simpa using enough) fun b below => ?_
          rw [chainBits_append, chainBits_cons, chainBits_nil] at below
          rcases lt_or_ge b (chainBits t.nodes pre + 16 * (stopped - 1)) with
            earlier | later
          · exact passed b earlier
          · obtain ⟨k, rfl⟩ := Nat.exists_eq_add_of_le
              (le_trans (Nat.le_add_right _ _) later)
            rw [chainBit_mid (by omega)]
            have last : k / 16 = stopped - 1 := by omega
            exact bit_of_full_word (last ▸ free)
        · rw [if_pos free]
          exact .inl ⟨pre, n, post, stopped - 1, rfl, rfl, by omega, free, passed⟩

/-- A change of the map alone: of the words of the map records and of the free node count. -/
structure MapChange (t t' : BTree R) (chain : List ℕ) : Prop where
  fields : t' = { t with nodes := t'.nodes, freeNodes := t'.freeNodes }
  record : ∀ m ∈ chain, t'.nodes m = { t.nodes m with mapWords := (t'.nodes m).mapWords }
  others : ∀ m, m ∉ chain → t'.nodes m = t.nodes m

theorem MapChange.sameShape (change : MapChange t t' chain) :
    SameShape t.nodes t'.nodes chain where
  fLink m mem := by rw [change.record m mem]
  kind m mem := by rw [change.record m mem]
  mapSize m mem := by rw [change.record m mem]

/-- A change of the map keeps a tree file consistent when it sets no bit past the nodes and the free
node count follows it. -/
theorem Mapped.of_change (mapped : Mapped t chain) (change : MapChange t t' chain)
    (unused : ∀ b, t.totalNodes ≤ b → chainBit t'.nodes chain b = false)
    (freeNodes : t'.freeNodes = clearNodes t'.nodes chain t.totalNodes) : Mapped t' chain := by
  have same := change.sameShape
  have bits := chainBits_congr same.mapSize
  have zero : 0 ∈ chain := mem_of_mem_head? mapped.head
  have totalNodes : t'.totalNodes = t.totalNodes := by rw [change.fields]
  have nodeSize : t'.nodeSize = t.nodeSize := by rw [change.fields]
  have fcbEOF : t'.fcbEOF = t.fcbEOF := by rw [change.fields]
  have initBits : chainBits t'.nodes chain.dropLast = chainBits t.nodes chain.dropLast :=
    chainBits_congr fun m mem => same.mapSize m (mem_of_mem_dropLast mem)
  constructor
  case head => exact mapped.head
  case header => exact (same.kind 0 zero).trans mapped.header
  case map =>
    intro m mem
    exact (same.kind m (mem_of_mem_tail mem)).trans (mapped.map m mem)
  case linked => exact same.linked mapped.linked
  case nodup => exact mapped.nodup
  case below => exact fun m mem => totalNodes ▸ mapped.below m mem
  case size_pos => exact fun m mem => same.mapSize m mem ▸ mapped.size_pos m mem
  case size_even => exact fun m mem => same.mapSize m mem ▸ mapped.size_even m mem
  case size_lt =>
    intro m mem
    rw [same.mapSize m mem, nodeSize]
    exact mapped.size_lt m mem
  case covers => rw [bits, totalNodes]; exact mapped.covers
  case tight => rw [initBits, totalNodes]; exact mapped.tight
  case unused => rw [totalNodes]; exact unused
  case eof => rw [fcbEOF, nodeSize, totalNodes]; exact mapped.eof
  case eof_lt => rw [fcbEOF]; exact mapped.eof_lt
  case nodeSize_ge => rw [nodeSize]; exact mapped.nodeSize_ge
  case nodeSize_lt => rw [nodeSize]; exact mapped.nodeSize_lt
  case nodeSize_even => rw [nodeSize]; exact mapped.nodeSize_even
  case freeNodes => rw [totalNodes]; exact freeNodes

/-- Writing one word of a map record changes the map alone. -/
theorem mapChange_setMapWord {pos freeNodes : ℕ} (mem : n ∈ chain) :
    MapChange t { t.setMapWord n pos word with freeNodes := freeNodes } chain := by
  constructor
  case fields => rfl
  case record =>
    intro m _
    rw [setMapWord]
    by_cases same : m = n
    · subst same
      simp
    · simp [setNode_nodes_of_ne same]
  case others =>
    intro m outside
    have other : m ≠ n := fun same => outside (same ▸ mem)
    exact setNode_nodes_of_ne other t _

/-- The map after one bit was written. -/
theorem chainBit_setMapWord {k : ℕ} {word : BitVec 16} {value : Bool}
    (distinct : (pre ++ n :: post).Nodup) (inside : k < recordBits t.nodes n)
    (written : ∀ i < 16, word.getMsbD i =
      if i = k % 16 then value else ((t.nodes n).mapWords (k / 16)).getMsbD i) (b : ℕ) :
    chainBit (t.setMapWord n (k / 16) word).nodes (pre ++ n :: post) b =
      if b = chainBits t.nodes pre + k then value else
        chainBit t.nodes (pre ++ n :: post) b := by
  have place : k / 16 * 16 + k % 16 = k := by omega
  have writes := writesRange_update value (t.nodes n).mapWords (k / 16) (k % 16) 1 word
    (by omega) fun i below => by
      rw [written i below]
      exact if_congr (by omega) rfl rfl
  rw [place] at writes
  refine chainBit_write distinct inside ?_ ?_ ?_
  · simp [setMapWord]
  · intro m other
    exact setNode_nodes_of_ne other t _
  · simpa [setMapWord] using writes

/-- Setting a clear bit of a node lowers the number of clear bits by one. -/
theorem clearNodes_set {nodes nodes' : ℕ → Node R} {k totalNodes : ℕ} (inside : k < totalNodes)
    (clear : chainBit nodes chain k = false)
    (set : ∀ b, chainBit nodes' chain b = if b = k then true else chainBit nodes chain b) :
    clearNodes nodes' chain totalNodes + 1 = clearNodes nodes chain totalNodes := by
  have erase : {b ∈ Finset.range totalNodes | chainBit nodes' chain b = false} =
      {b ∈ Finset.range totalNodes | chainBit nodes chain b = false}.erase k := by
    ext b
    rw [Finset.mem_erase, Finset.mem_filter, Finset.mem_filter, set b]
    by_cases same : b = k <;> simp [same]
  have mem : k ∈ {b ∈ Finset.range totalNodes | chainBit nodes chain b = false} := by
    simp [inside, clear]
  rw [clearNodes, erase, card_erase_add_one mem, clearNodes]

theorem clearNodes_le (nodes : ℕ → Node R) (chain : List ℕ) (totalNodes : ℕ) :
    clearNodes nodes chain totalNodes ≤ totalNodes := by
  calc
    clearNodes nodes chain totalNodes ≤ (Finset.range totalNodes).card :=
      Finset.card_filter_le _ _
    _ = totalNodes := card_range totalNodes

/-- What a successful `AllocateNode` does: it takes the first node whose bit is clear. -/
structure Allocates (t t' : BTree R) (chain : List ℕ) (k : ℕ) : Prop where
  inside : k < t.totalNodes
  clear : chainBit t.nodes chain k = false
  lowest : ∀ b < k, chainBit t.nodes chain b = true
  sets : ∀ b, chainBit t'.nodes chain b = if b = k then true else chainBit t.nodes chain b
  change : MapChange t t' chain
  mapped : Mapped t' chain

/-- `AllocateNode` on a consistent tree file takes the first free node, and fails only when a map
node cannot be fetched or no node is free. -/
theorem Mapped.allocateNode (mapped : Mapped t chain) (io : FetchErrors R) :
    (∃ k t', t.allocateNode io = (.ok k, t') ∧ Allocates t t' chain k) ∨
    ∃ e, t.allocateNode io = (.error e, t) ∧
      ((∃ m ∈ chain, io t m = some e) ∨ t.freeNodes = 0) := by
  have total := mapped.totalNodes_le
  have counted := mapped.freeNodes
  have most := clearNodes_le t.nodes chain t.totalNodes
  have full : (∀ b < t.totalNodes, chainBit t.nodes chain b = true) → t.freeNodes = 0 := by
    intro set
    rw [counted, clearNodes, card_eq_zero, filter_eq_empty_iff]
    intro b inside
    rw [set b (Finset.mem_range.mp inside)]
    exact Bool.noConfusion
  rcases mapped.findFreeWord io (show chain = [] ++ chain from rfl)
      (Nat.lt_succ_of_le mapped.length_le)
      (fun b below => absurd below (Nat.not_lt_zero b)) with
    ⟨before, n, after, pos, found, split, inside, free, passed⟩ | ⟨e, failed, reason⟩
  · subst split
    have start : t.findFreeWord io (t.totalNodes + 1) none 0 =
        .ok (n, pos, chainBits t.nodes before) := found
    obtain ⟨k, small, bitFound, clear, set⟩ := findFreeBit_spec (Nat.le_refl 15)
      (fun i below => absurd below (Nat.not_lt_zero i)) (exists_clear_of_ne free)
    have bitFound' : findFreeBit ((t.nodes n).mapWords pos) 15 0x8000#16 =
        (15 - k, 0x8000#16 >>> k) := bitFound
    have short := mapped.chainBits_lt
    rw [chainBits_append, chainBits_cons] at short
    have number : (chainBits t.nodes before + pos <<< 4 + (15 - (15 - k))) % 2 ^ 32 =
        chainBits t.nodes before + (16 * pos + k) := by
      rw [Nat.shiftLeft_eq]
      omega
    have wordIndex : (16 * pos + k) / 16 = pos := by omega
    have bitIndex : (16 * pos + k) % 16 = k := by omega
    have clearBit : chainBit t.nodes (before ++ n :: after)
        (chainBits t.nodes before + (16 * pos + k)) = false := by
      rw [chainBit_mid (by omega), bit, wordIndex, bitIndex, clear]
    have lowest : ∀ b < chainBits t.nodes before + (16 * pos + k),
        chainBit t.nodes (before ++ n :: after) b = true := by
      intro b below
      rcases lt_or_ge b (chainBits t.nodes before + 16 * pos) with earlier | later
      · exact passed b earlier
      · obtain ⟨i, rfl⟩ := Nat.exists_eq_add_of_le later
        rw [add_assoc, chainBit_mid (by omega), bit]
        have sameWord : (16 * pos + i) / 16 = pos := by omega
        have sameBit : (16 * pos + i) % 16 = i := by omega
        rw [sameWord, sameBit, set i (by omega)]
    rw [allocateNode, start]
    dsimp only
    rw [bitFound']
    rw [number]
    by_cases beyond : t.totalNodes ≤ chainBits t.nodes before + (16 * pos + k)
    · rw [if_pos beyond]
      exact .inr ⟨.fsBTFullErr, rfl, .inr (full fun b below => lowest b (by omega))⟩
    · rw [if_neg beyond]
      refine .inl ⟨_, _, rfl, ?_⟩
      have sets := @chainBit_setMapWord R t before after n (16 * pos + k)
        ((t.nodes n).mapWords pos ||| 0x8000#16 >>> k) true mapped.nodup (by omega)
        fun i below => by
          rw [wordIndex, bitIndex, BitVec.getMsbD_or, getMsbD_mask small]
          by_cases same : i = k <;> simp [same]
      rw [wordIndex] at sets
      have change : MapChange t { t.setMapWord n pos
            ((t.nodes n).mapWords pos ||| 0x8000#16 >>> k) with
            freeNodes := (t.freeNodes + 2 ^ 32 - 1) % 2 ^ 32 } (before ++ n :: after) :=
        mapChange_setMapWord (by simp)
      have fewer := clearNodes_set (not_le.mp beyond) clearBit sets
      refine ⟨not_le.mp beyond, clearBit, lowest, sets, change, mapped.of_change change ?_ ?_⟩
      · intro b past
        rw [sets b, if_neg (by omega)]
        exact mapped.unused b past
      · dsimp only
        omega
  · have start : t.findFreeWord io (t.totalNodes + 1) none 0 = .error e := failed
    refine .inr ⟨e, by rw [BTree.allocateNode, start], ?_⟩
    rcases reason with fetch | ⟨-, set⟩
    · exact .inl fetch
    · exact .inr (full fun b below => set b (lt_of_lt_of_le below mapped.covers))

end Allocate

/-! ## Freeing a node -/

section Free

variable {t t' : BTree R} {chain pre post : List ℕ} {n : ℕ}

theorem shiftLeft_three (size : ℕ) : size <<< 3 = 8 * size := by
  rw [Nat.shiftLeft_eq]
  omega

/-- The loop of `FreeNode` ends at the record that holds the bit of the node. -/
theorem Mapped.findMapRecord (mapped : Mapped t chain) (io : FetchErrors R) {fuel nodeNum : ℕ}
    {suf : List ℕ} (split : chain = pre ++ suf) (enough : suf.length < fuel)
    (inside : nodeNum < chainBits t.nodes chain) (after : chainBits t.nodes pre ≤ nodeNum) :
    (∃ before n rest, t.findMapRecord io nodeNum fuel pre.getLast? (chainBits t.nodes pre) =
        .ok (n, chainBits t.nodes before + recordBits t.nodes n) ∧ chain = before ++ n :: rest ∧
      chainBits t.nodes before ≤ nodeNum ∧
      nodeNum < chainBits t.nodes before + recordBits t.nodes n) ∨
    ∃ e, t.findMapRecord io nodeNum fuel pre.getLast? (chainBits t.nodes pre) = .error e ∧
      ∃ m ∈ chain, io t m = some e := by
  induction fuel generalizing pre suf with
  | zero => exact absurd enough (Nat.not_lt_zero _)
  | succ fuel ih =>
    cases suf with
    | nil =>
      rw [append_nil] at split
      subst split
      omega
    | cons n rest =>
      subst split
      rw [findMapRecord, mapped.getMapNode]
      cases fetch : io t n with
      | some e => exact .inr ⟨e, rfl, n, by simp, fetch⟩
      | none =>
        have short := mapped.chainBits_lt
        rw [chainBits_append, chainBits_cons] at short
        have next : (chainBits t.nodes pre + (t.nodes n).mapSize <<< 3) % 2 ^ 32 =
            chainBits t.nodes pre + recordBits t.nodes n := by
          rw [shiftLeft_three, ← recordBits]
          omega
        dsimp only
        rw [next]
        by_cases past : nodeNum ≥ chainBits t.nodes pre + recordBits t.nodes n
        · rw [if_pos past]
          have here : (pre ++ [n]).getLast? = some n := by simp
          have bits : chainBits t.nodes pre + recordBits t.nodes n =
              chainBits t.nodes (pre ++ [n]) := by simp
          rw [← here, bits]
          exact @ih (pre ++ [n]) rest (by simp) (by simpa using enough) (bits ▸ past)
        · rw [if_neg past]
          exact .inl ⟨pre, n, rest, rfl, rfl, after, not_le.mp past⟩

variable {word : BitVec 16} {k i : ℕ}

theorem getMsbD_clear (inside : k < 16) (below : i < 16) :
    (word &&& ~~~(1#16 <<< (15 - k))).getMsbD i =
      if i = k then false else word.getMsbD i := by
  have mask : 1#16 <<< (15 - k) = 0x8000#16 >>> k := by
    interval_cases k <;> decide
  rw [mask, BitVec.getMsbD_and, BitVec.getMsbD_not, getMsbD_mask inside]
  by_cases same : i = k <;> simp [same, below, inside]

theorem getMsbD_set (inside : k < 16) :
    (word ||| 1#16 <<< (15 - k)).getMsbD i = if i = k then true else word.getMsbD i := by
  have mask : 1#16 <<< (15 - k) = 0x8000#16 >>> k := by
    interval_cases k <;> decide
  rw [mask, BitVec.getMsbD_or, getMsbD_mask inside]
  by_cases same : i = k <;> simp [same]

/-- What a successful `FreeNode` does: it clears the bit of its node. -/
structure Frees (t t' : BTree R) (chain : List ℕ) (k : ℕ) : Prop where
  clears : ∀ b, chainBit t'.nodes chain b = if b = k then false else chainBit t.nodes chain b
  change : MapChange t t' chain
  mapped : Mapped t' chain

/-- `FreeNode` of an allocated node clears its bit, and fails only when a map node cannot be
fetched. -/
theorem Mapped.freeNode (mapped : Mapped t chain) (io : FetchErrors R)
    (inside : k < t.totalNodes) (allocated : chainBit t.nodes chain k = true) :
    (∃ t', t.freeNode io k = (.ok (), t') ∧ Frees t t' chain k) ∨
    ∃ e, t.freeNode io k = (.error e, t) ∧ ∃ m ∈ chain, io t m = some e := by
  rcases mapped.findMapRecord io (show chain = [] ++ chain from rfl)
      (Nat.lt_succ_of_le mapped.length_le) (lt_of_lt_of_le inside mapped.covers)
      (Nat.zero_le k) with ⟨before, n, rest, found, split, lower, upper⟩ | ⟨e, failed, reason⟩
  · subst split
    have start : t.findMapRecord io k (t.totalNodes + 1) none 0 =
        .ok (n, chainBits t.nodes before + recordBits t.nodes n) := found
    have short := mapped.chainBits_lt
    rw [chainBits_append, chainBits_cons] at short
    obtain ⟨i, rfl⟩ := Nat.exists_eq_add_of_le lower
    have recordStart : (chainBits t.nodes before + recordBits t.nodes n + 2 ^ 32 -
        (t.nodes n).mapSize <<< 3) % 2 ^ 32 = chainBits t.nodes before := by
      rw [shiftLeft_three, ← recordBits]
      omega
    have bitInRecord : (chainBits t.nodes before + i + 2 ^ 32 - chainBits t.nodes before) %
        2 ^ 32 = i := by
      omega
    have word : i >>> 4 = i / 16 := Nat.shiftRight_eq_div_pow i 4
    rw [freeNode, start]
    dsimp only
    rw [recordStart, bitInRecord, word]
    refine .inl ⟨_, rfl, ?_⟩
    have clears := @chainBit_setMapWord R t before rest n i
      ((t.nodes n).mapWords (i / 16) &&& ~~~(1#16 <<< (15 - i % 16))) false mapped.nodup (by omega)
      fun j below => getMsbD_clear (Nat.mod_lt i (by decide)) below
    have change : MapChange t { t.setMapWord n (i / 16)
          ((t.nodes n).mapWords (i / 16) &&& ~~~(1#16 <<< (15 - i % 16))) with
          freeNodes := (t.freeNodes + 1) % 2 ^ 32 } (before ++ n :: rest) :=
      mapChange_setMapWord (by simp)
    refine ⟨clears, change, mapped.of_change change ?_ ?_⟩
    · intro b past
      rw [clears b, if_neg (by omega)]
      exact mapped.unused b past
    · have more := @clearNodes_set R (before ++ n :: rest)
        (t.setMapWord n (i / 16) ((t.nodes n).mapWords (i / 16) &&& ~~~(1#16 <<< (15 - i % 16)))).nodes
        t.nodes (chainBits t.nodes before + i) t.totalNodes inside
        (by rw [clears, if_pos rfl])
        (fun b => by
          rw [clears b]
          by_cases same : b = chainBits t.nodes before + i
          · rw [if_pos same, same, allocated]
          · rw [if_neg same, if_neg same])
      have total := mapped.totalNodes_le
      have counted := mapped.freeNodes
      have most := clearNodes_le t.nodes (before ++ n :: rest) t.totalNodes
      dsimp only
      omega
  · have start : t.findMapRecord io k (t.totalNodes + 1) none 0 = .error e := failed
    exact .inr ⟨e, by rw [BTree.freeNode, start], reason⟩

end Free

/-! ## Extending the tree -/

section Extend

variable {t t' : BTree R} {chain pre post : List ℕ} {n : ℕ}
  {fuel nodeNum count first last fcbEOF : ℕ} {nodes : ℕ → Node R} {before : List ℕ}

/-- Counting the bits of the map ends at the last map node. -/
theorem Mapped.countMapBits (mapped : Mapped t chain) (io : FetchErrors R)
    (split : chain = pre ++ n :: post) (enough : post.length < fuel) :
    (∃ before last, chain = before ++ [last] ∧
      t.countMapBits io fuel pre.getLast? (chainBits t.nodes pre) =
        .ok ⟨last, chainBits t.nodes before, recordBits t.nodes last, chainBits t.nodes chain⟩) ∨
    ∃ e, t.countMapBits io fuel pre.getLast? (chainBits t.nodes pre) = .error e ∧
      ∃ m ∈ chain, io t m = some e := by
  induction fuel generalizing pre n post with
  | zero => exact absurd enough (Nat.not_lt_zero _)
  | succ fuel ih =>
    subst split
    rw [countMapBits, mapped.getMapNode]
    cases fetch : io t n with
    | some e => exact .inr ⟨e, rfl, n, by simp, fetch⟩
    | none =>
      have short := mapped.chainBits_lt
      rw [chainBits_append, chainBits_cons] at short
      have next : (chainBits t.nodes pre + (t.nodes n).mapSize <<< 3) % 2 ^ 32 =
          chainBits t.nodes (pre ++ [n]) := by
        rw [shiftLeft_three, ← recordBits, chainBits_append, chainBits_cons, chainBits_nil]
        omega
      dsimp only
      rw [next]
      cases post with
      | nil =>
        rw [if_neg (not_not.mpr mapped.linked.fLink_last), shiftLeft_three]
        exact .inl ⟨pre, n, rfl, rfl⟩
      | cons m rest =>
        obtain ⟨link, nonzero⟩ := mapped.linked.fLink_next
        have here : (pre ++ [n]).getLast? = some n := by simp
        rw [link, if_pos nonzero, ← here]
        exact @ih (pre ++ [n]) rest m (by simp) (by simpa using enough)

/-- A position in the map: a map node, with the place of its bits. -/
def MapCursor.at (nodes : ℕ → Node R) (pre : List ℕ) (n : ℕ) : MapCursor :=
  ⟨n, chainBits nodes pre, recordBits nodes n, chainBits nodes pre + recordBits nodes n⟩

/-- Seeking from a record at or before the bit of a node ends at the record that holds it. -/
theorem seek_spec (io : FetchErrors R) (split : chain = pre ++ n :: post)
    (linked : Linked t.nodes chain) (below : ∀ m ∈ chain, m < t.totalNodes)
    (short : chainBits t.nodes chain < 2 ^ 32) (lower : chainBits t.nodes pre ≤ nodeNum)
    (upper : nodeNum < chainBits t.nodes chain) (enough : post.length < fuel) :
    (∃ before m rest, (MapCursor.at t.nodes pre n).seek t io nodeNum fuel =
        .ok (MapCursor.at t.nodes before m) ∧ chain = before ++ m :: rest ∧
      chainBits t.nodes before ≤ nodeNum ∧
      nodeNum < chainBits t.nodes before + recordBits t.nodes m) ∨
    ∃ e, (MapCursor.at t.nodes pre n).seek t io nodeNum fuel = .error e ∧
      ∃ m ∈ chain, io t m = some e := by
  induction fuel generalizing pre n post with
  | zero => exact absurd enough (Nat.not_lt_zero _)
  | succ fuel ih =>
    subst split
    rw [chainBits_append, chainBits_cons] at short upper
    have bitInRecord : (nodeNum + 2 ^ 32 - chainBits t.nodes pre) % 2 ^ 32 =
        nodeNum - chainBits t.nodes pre := by
      omega
    rw [MapCursor.seek]
    by_cases past : nodeNum - chainBits t.nodes pre ≥ recordBits t.nodes n
    · rw [MapCursor.at, bitInRecord, if_pos past]
      cases post with
      | nil =>
        rw [chainBits_nil] at upper
        omega
      | cons m rest =>
        obtain ⟨link, nonzero⟩ := linked.fLink_next
        have inFile : ¬ m ≥ t.totalNodes := not_le.mpr (below m (by simp))
        rw [link, if_neg nonzero, getNode, if_neg inFile]
        cases fetch : io t m with
        | some e => exact .inr ⟨e, rfl, m, by simp, fetch⟩
        | none =>
          dsimp only
          have moved : (⟨m, chainBits t.nodes pre + recordBits t.nodes n,
              (t.nodes m).mapSize <<< 3, (chainBits t.nodes pre + recordBits t.nodes n +
                (t.nodes m).mapSize <<< 3) % 2 ^ 32⟩ : MapCursor) =
              MapCursor.at t.nodes (pre ++ [n]) m := by
            rw [chainBits_cons] at short
            rw [MapCursor.at, shiftLeft_three, ← recordBits, chainBits_append, chainBits_cons,
              chainBits_nil, add_zero, Nat.mod_eq_of_lt (by omega)]
          rw [moved]
          refine @ih (pre ++ [n]) rest m (by simp) ?_ (by simpa using enough)
          rw [chainBits_append, chainBits_cons, chainBits_nil]
          omega
    · rw [MapCursor.at, bitInRecord, if_neg past]
      exact .inl ⟨pre, n, post, rfl, rfl, lower, by omega⟩

theorem MapChange.refl (t : BTree R) (chain : List ℕ) : MapChange t t chain :=
  ⟨rfl, fun _ _ => rfl, fun _ _ => rfl⟩

theorem MapChange.trans {t'' : BTree R} (first : MapChange t t' chain)
    (second : MapChange t' t'' chain) : MapChange t t'' chain where
  fields := by
    rw [second.fields, first.fields]
  record m mem := by
    rw [second.record m mem, first.record m mem]
  others m outside := (second.others m outside).trans (first.others m outside)

/-- Marking new map nodes sets their bits. -/
theorem markMapNodes_spec (io : FetchErrors R)
    (split : chain = pre ++ n :: post) (distinct : chain.Nodup) (linked : Linked t.nodes chain)
    (below : ∀ m ∈ chain, m < t.totalNodes) (short : chainBits t.nodes chain < 2 ^ 32)
    (lower : chainBits t.nodes pre ≤ nodeNum)
    (upper : nodeNum + count ≤ chainBits t.nodes chain) :
    (∃ t', markMapNodes io count nodeNum (MapCursor.at t.nodes pre n) t = (.ok (), t') ∧
      MapChange t t' chain ∧ t'.freeNodes = t.freeNodes ∧ ∀ b, chainBit t'.nodes chain b =
        if nodeNum ≤ b ∧ b < nodeNum + count then true else chainBit t.nodes chain b) ∨
    ∃ e t', markMapNodes io count nodeNum (MapCursor.at t.nodes pre n) t = (.error e, t') ∧
      ∃ s, MapChange t s chain ∧ ∃ m ∈ chain, io s m = some e := by
  induction count generalizing nodeNum pre n post t with
  | zero =>
    refine .inl ⟨t, rfl, .refl t chain, rfl, fun b => ?_⟩
    rw [if_neg (by omega)]
  | succ count ih =>
    have chainLength : post.length < t.totalNodes + 1 := by
      have inRange : chain.toFinset ⊆ range t.totalNodes := by
        intro m mem
        rw [mem_toFinset] at mem
        exact Finset.mem_range.mpr (below m mem)
      have card := Finset.card_le_card inRange
      rw [toFinset_card_of_nodup distinct, card_range, split, length_append,
        length_cons] at card
      omega
    rw [markMapNodes]
    rcases seek_spec io split linked below short lower (by omega) chainLength with
      ⟨before, m, rest, found, split', lower', upper'⟩ | ⟨e, failed, reason⟩
    · subst split'
      have bitInRecord : (nodeNum + 2 ^ 32 - chainBits t.nodes before) % 2 ^ 32 =
          nodeNum - chainBits t.nodes before := by
        rw [chainBits_append, chainBits_cons] at short upper
        omega
      have word : (nodeNum - chainBits t.nodes before) >>> 4 =
          (nodeNum - chainBits t.nodes before) / 16 :=
        Nat.shiftRight_eq_div_pow _ 4
      rw [found]
      dsimp only [MapCursor.at]
      rw [bitInRecord, word]
      generalize position : nodeNum - chainBits t.nodes before = k
      have place : chainBits t.nodes before + k = nodeNum := by omega
      have sets := @chainBit_setMapWord R t before rest m k
        ((t.nodes m).mapWords (k / 16) ||| 1#16 <<< (15 - k % 16)) true distinct (by omega)
        fun i _ => getMsbD_set (Nat.mod_lt k (by decide))
      have change : MapChange t (t.setMapWord m (k / 16)
          ((t.nodes m).mapWords (k / 16) ||| 1#16 <<< (15 - k % 16))) (before ++ m :: rest) :=
        mapChange_setMapWord (by simp)
      have free : (t.setMapWord m (k / 16) ((t.nodes m).mapWords (k / 16) |||
          1#16 <<< (15 - k % 16))).freeNodes = t.freeNodes := rfl
      rw [place] at sets
      generalize t.setMapWord m (k / 16)
        ((t.nodes m).mapWords (k / 16) ||| 1#16 <<< (15 - k % 16)) = s at sets change free ⊢
      have shape := change.sameShape
      have bits := chainBits_congr shape.mapSize
      have beforeBits : chainBits s.nodes before = chainBits t.nodes before :=
        chainBits_congr fun l mem => shape.mapSize l (mem_append_left _ mem)
      have recordSame : recordBits s.nodes m = recordBits t.nodes m := by
        rw [recordBits, recordBits, shape.mapSize m (by simp)]
      have cursor : (⟨m, chainBits t.nodes before, recordBits t.nodes m,
          chainBits t.nodes before + recordBits t.nodes m⟩ : MapCursor) =
          MapCursor.at s.nodes before m := by
        rw [MapCursor.at, beforeBits, recordSame]
      have totalNodes : s.totalNodes = t.totalNodes := by rw [change.fields]
      rw [cursor]
      rcases @ih s before rest m (nodeNum + 1) rfl (shape.linked linked)
          (fun l mem => totalNodes ▸ below l mem) (bits ▸ short)
          (by omega) (by omega) with
        ⟨t', marked, more, same, later⟩ | ⟨e, t', failed, s', more, reason⟩
      · refine .inl ⟨t', marked, change.trans more, same.trans free, fun b => ?_⟩
        rw [later b, sets b]
        by_cases first : b = nodeNum
        · rw [if_neg (by omega), if_pos first, if_pos (by omega)]
        · rw [if_neg first]
          exact if_congr (by omega) rfl rfl
      · exact .inr ⟨e, t', failed, s', change.trans more, reason⟩
    · rw [failed]
      exact .inr ⟨e, t, rfl, t, .refl t chain, reason⟩

/-- The new map nodes are linked one to the next; every other node is as before. -/
theorem initMapNodes_spec (count nodeNum : ℕ) (t : BTree R) :
    initMapNodes count nodeNum t = { t with
      nodes := fun m =>
        if nodeNum ≤ m ∧ m ≤ nodeNum + count then
          .newMap t.nodeSize (if m = nodeNum + count then 0 else m + 1)
        else t.nodes m } := by
  induction count generalizing nodeNum t with
  | zero =>
    rw [initMapNodes, setNode]
    congr 1
    funext m
    by_cases same : m = nodeNum
    · subst same
      simp
    · rw [Function.update_of_ne same, if_neg (by omega)]
  | succ count ih =>
    rw [initMapNodes, ih]
    congr 1
    funext m
    dsimp only [setNode]
    by_cases later : nodeNum + 1 ≤ m ∧ m ≤ nodeNum + 1 + count
    · have whole : nodeNum ≤ m ∧ m ≤ nodeNum + (count + 1) := by omega
      have last : nodeNum + 1 + count = nodeNum + (count + 1) := by omega
      rw [if_pos later, if_pos whole, last]
    · rw [if_neg later]
      by_cases same : m = nodeNum
      · rw [same, Function.update_self, if_pos (by omega), if_neg (by omega)]
      · rw [Function.update_of_ne same, if_neg (by omega)]

theorem linked_range (links : ∀ m, first ≤ m → m ≤ first + count →
      (nodes m).fLink = if m = first + count then 0 else m + 1) :
    Linked nodes (List.range' first (count + 1)) := by
  induction count generalizing first with
  | zero =>
    have last := links first le_rfl le_rfl
    rwa [add_zero, if_pos rfl] at last
  | succ count ih =>
    have next := links first le_rfl (by omega)
    rw [if_neg (by omega)] at next
    have rest : Linked nodes (List.range' (first + 1) (count + 1)) := ih fun m lower upper => by
      rw [links m (by omega) (by omega)]
      exact if_congr (by omega) rfl rfl
    rw [range'_succ, range'_succ]
    rw [range'_succ] at rest
    exact ⟨next, Nat.succ_ne_zero first, rest⟩

/-- Appending to a chain whose last node now links to the appended nodes. -/
theorem Linked.append {nodes' : ℕ → Node R} {rest : List ℕ}
    (linked : Linked nodes (pre ++ [last])) (same : ∀ m ∈ pre, (nodes' m).fLink = (nodes m).fLink)
    (link : (nodes' last).fLink = first) (nonzero : first ≠ 0)
    (added : Linked nodes' (first :: rest)) : Linked nodes' (pre ++ last :: first :: rest) := by
  induction pre with
  | nil => exact ⟨link, nonzero, added⟩
  | cons n pre ih =>
    have here := same n mem_cons_self
    have later := fun m mem => same m (mem_cons_of_mem n mem)
    cases pre with
    | nil => exact ⟨here.trans linked.1, linked.2.1, ih linked.2.2 later⟩
    | cons m pre => exact ⟨here.trans linked.1, linked.2.1, ih linked.2.2 later⟩

/-- The number of map nodes that `ExtendBTree` adds is enough for `missing` more bits, is not more
than the nodes themselves, and starts its last record at or before the last of them. -/
theorem newMapNodes_spec {missing recSize : ℕ} (positive : 0 < missing) (size : 0 < recSize) :
    missing ≤ (missing / 8 / recSize + 1) * (8 * recSize) ∧
      missing / 8 / recSize * (8 * recSize) ≤ missing ∧
      missing / 8 / recSize + 1 ≤ missing := by
  have decomposition := Nat.div_add_mod (missing / 8) recSize
  have remainder := Nat.mod_lt (missing / 8) size
  have quotient : missing / 8 / recSize ≤ missing / 8 := Nat.div_le_self _ _
  have product : missing / 8 / recSize * (8 * recSize) =
      8 * (recSize * (missing / 8 / recSize)) := by ring
  rw [add_mul, product]
  omega

theorem chainBit_of_zero {b : ℕ}
    (zero : ∀ m ∈ chain, (nodes m).mapWords = fun _ => 0#16) : chainBit nodes chain b = false := by
  induction chain generalizing b with
  | nil => rfl
  | cons n chain ih =>
    rw [chainBit, zero n mem_cons_self, ih fun m mem =>
      zero m (mem_cons_of_mem n mem)]
    simp [bit]

/-- What a successful `ExtendBTree` does to the map: it appends `added` map nodes, which are
allocated, and changes no bit of an old node. -/
structure Extends (t t' : BTree R) (chain added : List ℕ) : Prop where
  old : ∀ n ∈ chain, (t'.nodes n).mapSize = (t.nodes n).mapSize
  new : ∀ n ∈ added, (t'.nodes n).mapSize = t.nodeSize - 6 - 14
  count : added.length = if t'.totalNodes > chainBits t.nodes chain then
    (t'.totalNodes - chainBits t.nodes chain) / 8 / (t.nodeSize - 6 - 14) + 1 else 0
  mapped : Mapped t' (chain ++ added)
  grows : t.totalNodes ≤ t'.totalNodes
  marked : ∀ n ∈ added, chainBit t'.nodes (chain ++ added) n = true
  kept : ∀ b < t.totalNodes, chainBit t'.nodes (chain ++ added) b = chainBit t.nodes chain b
  others : ∀ m, m ∉ chain ++ added → t'.nodes m = t.nodes m
  fields : t' = { t with
    nodes := t'.nodes, freeNodes := t'.freeNodes, totalNodes := t'.totalNodes,
    fcbEOF := t'.fcbEOF }

/-- The free node count of an extended file when the new nodes are free but for `count` new map
nodes that follow the old nodes. -/
theorem clearNodes_extend {nodes nodes' : ℕ → Node R} {chain' : List ℕ} {old count total : ℕ}
    (room : old + count ≤ total) (kept : ∀ b < old, chainBit nodes' chain' b = chainBit nodes chain b)
    (bits : ∀ b, old ≤ b → b < total → chainBit nodes' chain' b = decide (b < old + count)) :
    clearNodes nodes' chain' total + count = clearNodes nodes chain old + (total - old) := by
  have split : {b ∈ Finset.range total | chainBit nodes' chain' b = false} =
      {b ∈ Finset.range old | chainBit nodes chain b = false} ∪ Finset.Ico (old + count) total := by
    ext b
    rw [Finset.mem_union, Finset.mem_filter, Finset.mem_filter, Finset.mem_range, Finset.mem_range,
      Finset.mem_Ico]
    rcases lt_or_ge b old with below | above
    · rw [kept b below]
      constructor
      · exact fun left => .inl ⟨below, left.2⟩
      · rintro (left | right)
        · exact ⟨by omega, left.2⟩
        · omega
    · constructor
      · rintro ⟨inside, clear⟩
        rw [bits b above inside, decide_eq_false_iff_not] at clear
        exact .inr ⟨not_lt.mp clear, inside⟩
      · rintro (left | ⟨past, inside⟩)
        · omega
        · refine ⟨inside, ?_⟩
          rw [bits b above inside, decide_eq_false_iff_not]
          exact not_lt.mpr past
  have apart : Disjoint {b ∈ Finset.range old | chainBit nodes chain b = false}
      (Finset.Ico (old + count) total) := by
    rw [Finset.disjoint_left]
    intro b left right
    rw [Finset.mem_filter, Finset.mem_range] at left
    rw [Finset.mem_Ico] at right
    omega
  rw [clearNodes, split, card_union_of_disjoint apart, Nat.card_Ico, ← clearNodes]
  omega

/-- Extending the file without new map nodes. -/
theorem Mapped.grow (mapped : Mapped t chain) (longer : t.fcbEOF ≤ fcbEOF)
    (bound : fcbEOF < 2 ^ 32) (covered : fcbEOF / t.nodeSize ≤ chainBits t.nodes chain) :
    Extends t { t with
      fcbEOF := fcbEOF, totalNodes := fcbEOF / t.nodeSize,
      freeNodes := (t.freeNodes + 2 ^ 32 + fcbEOF / t.nodeSize - t.totalNodes) % 2 ^ 32 }
      chain [] := by
  have grows : t.totalNodes ≤ fcbEOF / t.nodeSize := by
    rw [← mapped.eof]
    exact Nat.div_le_div_right longer
  have total : fcbEOF / t.nodeSize ≤ 2 ^ 23 := by
    calc
      fcbEOF / t.nodeSize ≤ 2 ^ 32 / 512 := Nat.div_le_div bound.le mapped.nodeSize_ge (by decide)
      _ = 2 ^ 23 := by norm_num
  have counted := mapped.freeNodes
  have most := clearNodes_le t.nodes chain t.totalNodes
  have count := @clearNodes_extend R chain t.nodes t.nodes chain t.totalNodes 0
    (fcbEOF / t.nodeSize) grows (fun _ _ => rfl) fun b above _ => by
      rw [mapped.unused b above]
      symm
      rw [decide_eq_false_iff_not]
      omega
  refine ⟨fun _ _ => rfl, fun n mem => absurd mem not_mem_nil,
    (if_neg (not_lt.mpr covered)).symm, ?_, grows, fun n mem => absurd mem not_mem_nil,
    fun b _ => by rw [append_nil], fun _ _ => rfl, rfl⟩
  rw [append_nil]
  constructor
  case head => exact mapped.head
  case header => exact mapped.header
  case map => exact mapped.map
  case linked => exact mapped.linked
  case nodup => exact mapped.nodup
  case below => exact fun m mem => lt_of_lt_of_le (mapped.below m mem) grows
  case size_pos => exact mapped.size_pos
  case size_even => exact mapped.size_even
  case size_lt => exact mapped.size_lt
  case covers => exact covered
  case tight => exact mapped.tight.trans grows
  case unused => exact fun b past => mapped.unused b (grows.trans past)
  case eof => rfl
  case eof_lt => exact bound
  case nodeSize_ge => exact mapped.nodeSize_ge
  case nodeSize_lt => exact mapped.nodeSize_lt
  case nodeSize_even => exact mapped.nodeSize_even
  case freeNodes =>
    dsimp only
    omega

/-- A tree file whose chain of map nodes was extended by new map nodes. -/
structure Extending (t s : BTree R) (chain added : List ℕ) : Prop where
  fields : s = { t with
    nodes := s.nodes, freeNodes := s.freeNodes, totalNodes := s.totalNodes, fcbEOF := s.fcbEOF }
  eof : s.fcbEOF / t.nodeSize = s.totalNodes
  linked : Linked s.nodes (chain ++ added)
  nodup : (chain ++ added).Nodup
  below : ∀ m ∈ chain ++ added, m < s.totalNodes
  old : ∀ m ∈ chain, s.nodes m =
    { t.nodes m with fLink := (s.nodes m).fLink, mapWords := (s.nodes m).mapWords }
  new : ∀ m ∈ added, s.nodes m =
    { Node.newMap t.nodeSize (s.nodes m).fLink with mapWords := (s.nodes m).mapWords }
  others : ∀ m, m ∉ chain ++ added → s.nodes m = t.nodes m

section Extending

variable {s s' : BTree R} {added : List ℕ}

variable (extending : Extending t s chain added)

include extending

theorem Extending.change (change : MapChange s s' (chain ++ added)) :
    Extending t s' chain added := by
  have shape := change.sameShape
  have totalNodes : s'.totalNodes = s.totalNodes := by rw [change.fields]
  have fcbEOF : s'.fcbEOF = s.fcbEOF := by rw [change.fields]
  constructor
  case fields =>
    have first := change.fields
    rw [extending.fields] at first
    rw [totalNodes, fcbEOF]
    exact first
  case eof => rw [totalNodes, fcbEOF]; exact extending.eof
  case linked => exact shape.linked extending.linked
  case nodup => exact extending.nodup
  case below => exact fun m mem => totalNodes ▸ extending.below m mem
  case old =>
    intro m mem
    rw [change.record m (mem_append_left _ mem), extending.old m mem]
  case new =>
    intro m mem
    rw [change.record m (mem_append_right _ mem), extending.new m mem]
    rfl
  case others =>
    intro m outside
    exact (change.others m outside).trans (extending.others m outside)

theorem Extending.mapSize_old {m : ℕ} (mem : m ∈ chain) :
    (s.nodes m).mapSize = (t.nodes m).mapSize := by
  rw [extending.old m mem]

theorem Extending.mapSize_new {m : ℕ} (mem : m ∈ added) :
    (s.nodes m).mapSize = t.nodeSize - 6 - 14 := by
  rw [extending.new m mem]
  rfl

/-- The bits of the extended map. -/
theorem Extending.chainBits :
    chainBits s.nodes (chain ++ added) =
      chainBits t.nodes chain + added.length * (8 * (t.nodeSize - 6 - 14)) := by
  rw [chainBits_append, chainBits_congr fun m mem => extending.mapSize_old mem]
  rw [chainBits_eq fun m mem => extending.mapSize_new mem]

/-- An extended tree file is consistent when its map covers the file and the free node count
follows it. -/
theorem Extending.mapped (mapped : Mapped t chain) (bound : s.fcbEOF < 2 ^ 32)
    (covers : s.totalNodes ≤ Darwin.Hfs.NodeMap.chainBits s.nodes (chain ++ added))
    (tight : Darwin.Hfs.NodeMap.chainBits s.nodes (chain ++ added).dropLast ≤ s.totalNodes)
    (unused : ∀ b, s.totalNodes ≤ b → chainBit s.nodes (chain ++ added) b = false)
    (freeNodes : s.freeNodes = clearNodes s.nodes (chain ++ added) s.totalNodes) :
    Mapped s (chain ++ added) := by
  have nodeSize : s.nodeSize = t.nodeSize := by rw [extending.fields]
  have zero : 0 ∈ chain := mem_of_mem_head? mapped.head
  have large := mapped.nodeSize_ge
  have even := mapped.nodeSize_even
  have cases (p : ℕ → Prop) (old : ∀ m ∈ chain, p m) (new : ∀ m ∈ added, p m) :
      ∀ m ∈ chain ++ added, p m := by
    intro m mem
    rcases mem_append.mp mem with inOld | inNew
    · exact old m inOld
    · exact new m inNew
  constructor
  case head =>
    rw [List.head?_append, mapped.head]
    rfl
  case header =>
    rw [extending.old 0 zero]
    exact mapped.header
  case map =>
    have nonempty : chain ≠ [] := ne_nil_of_mem zero
    rw [tail_append_of_ne_nil nonempty]
    intro m mem
    rcases mem_append.mp mem with inOld | inNew
    · rw [extending.old m (mem_of_mem_tail inOld)]
      exact mapped.map m inOld
    · rw [extending.new m inNew]
      rfl
  case linked => exact extending.linked
  case nodup => exact extending.nodup
  case below => exact extending.below
  case size_pos =>
    refine cases _ (fun m mem => ?_) fun m mem => ?_
    · rw [extending.mapSize_old mem]
      exact mapped.size_pos m mem
    · rw [extending.mapSize_new mem]
      omega
  case size_even =>
    refine cases _ (fun m mem => ?_) fun m mem => ?_
    · rw [extending.mapSize_old mem]
      exact mapped.size_even m mem
    · rw [extending.mapSize_new mem]
      omega
  case size_lt =>
    refine cases _ (fun m mem => ?_) fun m mem => ?_
    · rw [extending.mapSize_old mem, nodeSize]
      exact mapped.size_lt m mem
    · rw [extending.mapSize_new mem, nodeSize]
      omega
  case covers => exact covers
  case tight => exact tight
  case unused => exact unused
  case eof => rw [nodeSize]; exact extending.eof
  case eof_lt => exact bound
  case nodeSize_ge => rw [nodeSize]; exact large
  case nodeSize_lt => rw [nodeSize]; exact mapped.nodeSize_lt
  case nodeSize_even => rw [nodeSize]; exact even
  case freeNodes => exact freeNodes

end Extending

/-- The tree file after `ExtendBTree` has linked in and initialized `count + 1` new map nodes. -/
def linkMapNodes (t : BTree R) (fcbEOF last count : ℕ) : BTree R :=
  initMapNodes count t.totalNodes
    (setNode { t with fcbEOF := fcbEOF, totalNodes := fcbEOF / t.nodeSize } last
      { t.nodes last with fLink := t.totalNodes })

/-- Linking in new map nodes extends the chain and sets no bit. -/
theorem Mapped.extending_link {before : List ℕ} {last fcbEOF count : ℕ}
    (mapped : Mapped t (before ++ [last])) (room : t.totalNodes + count < fcbEOF / t.nodeSize) :
    Extending t (linkMapNodes t fcbEOF last count) (before ++ [last])
        (List.range' t.totalNodes (count + 1)) ∧
      ∀ b, chainBit (linkMapNodes t fcbEOF last count).nodes
        (before ++ [last] ++ List.range' t.totalNodes (count + 1)) b =
          chainBit t.nodes (before ++ [last]) b := by
  have linkEq : linkMapNodes t fcbEOF last count = { t with
      fcbEOF := fcbEOF, totalNodes := fcbEOF / t.nodeSize,
      nodes := fun m =>
        if t.totalNodes ≤ m ∧ m ≤ t.totalNodes + count then
          .newMap t.nodeSize (if m = t.totalNodes + count then 0 else m + 1)
        else if m = last then { t.nodes last with fLink := t.totalNodes } else t.nodes m } := by
    rw [linkMapNodes, initMapNodes_spec, setNode]
    congr 1
    funext m
    by_cases same : m = last
    · subst same
      simp
    · simp [same]
  rw [linkEq]
  have inNew (m : ℕ) (mem : m ∈ List.range' t.totalNodes (count + 1)) :
      t.totalNodes ≤ m ∧ m ≤ t.totalNodes + count := by
    rw [mem_range'_1] at mem
    omega
  have notNew (m : ℕ) (mem : m ∈ before ++ [last]) :
      ¬ (t.totalNodes ≤ m ∧ m ≤ t.totalNodes + count) := by
    have := mapped.below m mem
    omega
  have distinct := mapped.nodup
  rw [nodup_append] at distinct
  have notLast (m : ℕ) (mem : m ∈ before) : m ≠ last :=
    distinct.2.2 m mem last (by simp)
  have nonzero : t.totalNodes ≠ 0 := Nat.ne_zero_of_lt (mapped.below last (by simp))
  constructor
  · constructor
    case fields => rfl
    case eof => rfl
    case linked =>
      rw [range'_succ, append_assoc, singleton_append]
      refine mapped.linked.append (fun m mem => ?_) ?_ nonzero ?_
      · dsimp only
        rw [if_neg (notNew m (mem_append_left _ mem)), if_neg (notLast m mem)]
      · dsimp only
        rw [if_neg (notNew last (by simp)), if_pos rfl]
      · rw [← range'_succ]
        refine linked_range fun m lower upper => ?_
        dsimp only
        rw [if_pos ⟨lower, upper⟩]
        rfl
    case nodup =>
      rw [nodup_append]
      refine ⟨mapped.nodup, nodup_range', fun m old k new => ?_⟩
      have below := mapped.below m old
      have above := (inNew k new).1
      omega
    case below =>
      intro m mem
      rcases mem_append.mp mem with old | new
      · have below := mapped.below m old
        dsimp only
        omega
      · have inside := inNew m new
        dsimp only
        omega
    case old =>
      intro m mem
      dsimp only
      rw [if_neg (notNew m mem)]
      by_cases same : m = last
      · rw [if_pos same, same]
      · rw [if_neg same]
    case new =>
      intro m mem
      dsimp only
      rw [if_pos (inNew m mem)]
      rfl
    case others =>
      intro m outside
      dsimp only
      rw [if_neg, if_neg]
      · exact fun same => outside (by simp [same])
      · intro inside
        apply outside
        rw [mem_append, mem_range'_1]
        exact .inr (by omega)
  · intro b
    have oldBits : chainBits (fun m : ℕ =>
        if t.totalNodes ≤ m ∧ m ≤ t.totalNodes + count then
          Node.newMap t.nodeSize (if m = t.totalNodes + count then 0 else m + 1)
        else if m = last then { t.nodes last with fLink := t.totalNodes } else t.nodes m)
        (before ++ [last]) = chainBits t.nodes (before ++ [last]) := by
      refine chainBits_congr fun m mem => ?_
      rw [if_neg (notNew m mem)]
      by_cases same : m = last
      · rw [if_pos same, same]
      · rw [if_neg same]
    dsimp only
    rw [chainBit_append, oldBits]
    by_cases inside : b < chainBits t.nodes (before ++ [last])
    · rw [if_pos inside]
      refine chainBit_congr (fun m mem => ?_) fun m mem => ?_ <;>
      · rw [if_neg (notNew m mem)]
        by_cases same : m = last
        · rw [if_pos same, same]
        · rw [if_neg same]
    · rw [if_neg inside, chainBit_of_le (not_lt.mp inside)]
      refine chainBit_of_zero fun m mem => ?_
      rw [if_pos (inNew m mem)]
      rfl

/-- The tree file with the new map nodes marked and the free node count adjusted. -/
theorem Mapped.extends_of_marked {s : BTree R} (mapped : Mapped t (before ++ [last]))
    (extending : Extending t s (before ++ [last]) (List.range' t.totalNodes (count + 1)))
    (bound : s.fcbEOF < 2 ^ 32) (room : t.totalNodes + (count + 1) ≤ s.totalNodes)
    (counted : count + 1 = if s.totalNodes > chainBits t.nodes (before ++ [last]) then
      (s.totalNodes - chainBits t.nodes (before ++ [last])) / 8 / (t.nodeSize - 6 - 14) + 1 else 0)
    (covers : s.totalNodes ≤ chainBits t.nodes (before ++ [last]) +
      (count + 1) * (8 * (t.nodeSize - 6 - 14)))
    (tight : chainBits t.nodes (before ++ [last]) + count * (8 * (t.nodeSize - 6 - 14)) ≤
      s.totalNodes)
    (freeNodes : s.freeNodes = t.freeNodes)
    (bits : ∀ b, chainBit s.nodes (before ++ [last] ++ List.range' t.totalNodes (count + 1)) b =
      if t.totalNodes ≤ b ∧ b < t.totalNodes + (count + 1) then true
      else chainBit t.nodes (before ++ [last]) b) :
    Extends t { s with freeNodes := (s.freeNodes + 2 ^ 32 + s.totalNodes - t.totalNodes + 2 ^ 32 -
      (count + 1)) % 2 ^ 32 } (before ++ [last]) (List.range' t.totalNodes (count + 1)) := by
  have total : s.totalNodes ≤ 2 ^ 23 := by
    rw [← extending.eof]
    calc
      s.fcbEOF / t.nodeSize ≤ 2 ^ 32 / 512 := Nat.div_le_div bound.le mapped.nodeSize_ge (by decide)
      _ = 2 ^ 23 := by norm_num
  have clear := mapped.freeNodes
  have most := clearNodes_le t.nodes (before ++ [last]) t.totalNodes
  have kept : ∀ b < t.totalNodes,
      chainBit s.nodes (before ++ [last] ++ List.range' t.totalNodes (count + 1)) b =
        chainBit t.nodes (before ++ [last]) b := by
    intro b below
    rw [bits b, if_neg (by omega)]
  have number := clearNodes_extend room kept fun b above _ => by
    rw [bits b]
    by_cases inside : b < t.totalNodes + (count + 1)
    · rw [if_pos ⟨above, inside⟩, decide_eq_true inside]
    · rw [if_neg fun both => inside both.2, decide_eq_false inside]
      exact mapped.unused b above
  have recount : Extending t { s with
      freeNodes := (s.freeNodes + 2 ^ 32 + s.totalNodes - t.totalNodes + 2 ^ 32 -
        (count + 1)) % 2 ^ 32 } (before ++ [last]) (List.range' t.totalNodes (count + 1)) :=
    extending.change ⟨rfl, fun _ _ => rfl, fun _ _ => rfl⟩
  refine ⟨fun m mem => extending.mapSize_old mem,
    fun m mem => extending.mapSize_new mem, length_range'.trans counted,
    recount.mapped mapped bound ?_ ?_ ?_ ?_, by dsimp only; omega, ?_, kept, recount.others,
    recount.fields⟩
  · rw [recount.chainBits, length_range']
    exact covers
  · have initial : (before ++ [last] ++ List.range' t.totalNodes (count + 1)).dropLast =
        before ++ [last] ++ List.range' t.totalNodes count := by
      rw [range'_concat, ← append_assoc, dropLast_concat]
    have size : ∀ m ∈ List.range' t.totalNodes count,
        (s.nodes m).mapSize = t.nodeSize - 6 - 14 := by
      intro m mem
      rw [mem_range'_1] at mem
      exact extending.mapSize_new (mem_range'_1.mpr (by omega))
    rw [initial]
    rw [chainBits_append, chainBits_eq size, length_range',
      chainBits_congr fun m mem => extending.mapSize_old mem]
    exact tight
  · intro b past
    dsimp only at past ⊢
    rw [bits b, if_neg (by omega)]
    exact mapped.unused b (by omega)
  · dsimp only
    omega
  · intro m mem
    rw [mem_range'_1] at mem
    rw [bits m, if_pos mem]

/-- The second part of `ExtendBTree`, on a file that did not get shorter, keeps the tree file
consistent, and fails only when a map node cannot be fetched. -/
theorem Mapped.addMapNodes
    (mapped : Mapped t (before ++ [last])) (io : FetchErrors R) (longer : t.fcbEOF ≤ fcbEOF)
    (bound : fcbEOF < 2 ^ 32) :
    (∃ t' added, t.addMapNodes io ⟨last, chainBits t.nodes before, recordBits t.nodes last,
        chainBits t.nodes (before ++ [last])⟩ fcbEOF = (.ok (), t') ∧
      Extends t t' (before ++ [last]) added ∧ t'.totalNodes = fcbEOF / t.nodeSize) ∨
    ∃ e t', t.addMapNodes io ⟨last, chainBits t.nodes before, recordBits t.nodes last,
        chainBits t.nodes (before ++ [last])⟩ fcbEOF = (.error e, t') ∧
      ∃ s added, Extending t s (before ++ [last]) added ∧
        ∃ m ∈ before ++ [last] ++ added, io s m = some e := by
  rw [BTree.addMapNodes]
  dsimp only
  by_cases more : fcbEOF / t.nodeSize > chainBits t.nodes (before ++ [last])
  · rw [if_pos more, Nat.shiftRight_eq_div_pow, Nat.sub_sub]
    have nodeSize := mapped.nodeSize_ge
    have recSize : t.nodeSize - (14 + 6) = t.nodeSize - 6 - 14 := by omega
    rw [recSize]
    obtain ⟨enough, needed, few⟩ := @newMapNodes_spec
      (fcbEOF / t.nodeSize - chainBits t.nodes (before ++ [last])) (t.nodeSize - 6 - 14)
      (by omega) (by omega)
    have eight : 2 ^ 3 = 8 := rfl
    rw [eight]
    generalize quotient : (fcbEOF / t.nodeSize - chainBits t.nodes (before ++ [last])) / 8 /
      (t.nodeSize - 6 - 14) = count at enough needed few ⊢
    have covered := mapped.covers
    have total : fcbEOF / t.nodeSize ≤ 2 ^ 23 := by
      calc
        fcbEOF / t.nodeSize ≤ 2 ^ 32 / 512 := Nat.div_le_div bound.le mapped.nodeSize_ge (by decide)
        _ = 2 ^ 23 := by norm_num
    rw [Nat.add_sub_cancel, ← linkMapNodes]
    obtain ⟨extending, unset⟩ := @Mapped.extending_link R t before last fcbEOF count mapped
      (by omega)
    have linkedFields : (linkMapNodes t fcbEOF last count).totalNodes = fcbEOF / t.nodeSize ∧
        (linkMapNodes t fcbEOF last count).fcbEOF = fcbEOF ∧
        (linkMapNodes t fcbEOF last count).freeNodes = t.freeNodes := by
      rw [linkMapNodes, initMapNodes_spec, setNode]
      exact ⟨rfl, rfl, rfl⟩
    generalize linkMapNodes t fcbEOF last count = s at extending unset linkedFields ⊢
    obtain ⟨linkedTotal, linkedEOF, linkedFree⟩ := linkedFields
    have chainSplit : before ++ [last] ++ List.range' t.totalNodes (count + 1) =
        before ++ last :: List.range' t.totalNodes (count + 1) := by simp
    have bits := extending.chainBits
    rw [length_range'] at bits
    have beforeBits : chainBits s.nodes before = chainBits t.nodes before :=
      chainBits_congr fun m mem => extending.mapSize_old (mem_append_left _ mem)
    have lastBits : recordBits s.nodes last = recordBits t.nodes last := by
      rw [recordBits, recordBits, extending.mapSize_old (by simp)]
    have cursor : (⟨last, chainBits t.nodes before, recordBits t.nodes last,
        chainBits t.nodes (before ++ [last])⟩ : MapCursor) = MapCursor.at s.nodes before last := by
      rw [MapCursor.at, beforeBits, lastBits, chainBits_append, chainBits_cons, chainBits_nil,
        add_zero]
    have tight := mapped.tight
    rw [dropLast_concat] at tight
    have product : (count + 1) * (8 * (t.nodeSize - 6 - 14)) =
        count * (8 * (t.nodeSize - 6 - 14)) + 8 * (t.nodeSize - 6 - 14) := by
      rw [add_mul, one_mul]
    have nodeBound := mapped.nodeSize_lt
    rw [cursor]
    have lower : chainBits s.nodes before ≤ t.totalNodes := by omega
    have upper : t.totalNodes + (count + 1) ≤ chainBits s.nodes
        (before ++ [last] ++ List.range' t.totalNodes (count + 1)) := by omega
    rcases markMapNodes_spec io chainSplit extending.nodup extending.linked extending.below
        (by omega) lower upper with
      ⟨t', marked, change, free, sets⟩ | ⟨e, t', failed, s', change, reason⟩
    · rw [marked]
      have newTotal : t'.totalNodes = fcbEOF / t.nodeSize := by rw [change.fields, linkedTotal]
      have newEOF : t'.fcbEOF = fcbEOF := by rw [change.fields, linkedEOF]
      refine .inl ⟨_, List.range' t.totalNodes (count + 1), rfl, ?_, newTotal⟩
      rw [← newTotal]
      refine mapped.extends_of_marked (extending.change change) (newEOF ▸ bound) (by omega)
        (by rw [newTotal, if_pos more, quotient]) (by omega) (by omega) (free.trans linkedFree)
        fun b => ?_
      rw [sets b, unset b]
    · rw [failed]
      exact .inr ⟨e, t', rfl, s', _, extending.change change, reason⟩
  · rw [if_neg more]
    exact .inl ⟨_, [], rfl, mapped.grow longer bound (not_lt.mp more), rfl⟩

/-- The number of nodes of the file after `ExtendBTree`. -/
def grownNodes (t : BTree R) (setEndOfFork : ℕ → ℕ → Except BTErr ℕ) (newTotalNodes : ℕ) : ℕ :=
  if newTotalNodes ≤ t.totalNodes then t.totalNodes
  else
    let minEOF := newTotalNodes * t.nodeSize % 2 ^ 32
    if t.fcbEOF < minEOF then ((setEndOfFork t.fcbEOF minEOF).toOption.getD 0) / t.nodeSize
    else t.fcbEOF / t.nodeSize

/-- `ExtendBTree` on a consistent tree file, with a callback that does not shorten the file, keeps
the file consistent; it fails only when the callback does or a map node cannot be fetched. -/
theorem Mapped.extendBTree (mapped : Mapped t chain) (io : FetchErrors R)
    (setEndOfFork : ℕ → ℕ → Except BTErr ℕ)
    (callback : ∀ eof minEOF new, setEndOfFork eof minEOF = .ok new → eof ≤ new ∧ new < 2 ^ 32)
    (newTotalNodes : ℕ) :
    (∃ t' added, t.extendBTree io setEndOfFork newTotalNodes = (.ok (), t') ∧
      Extends t t' chain added ∧ t'.totalNodes = grownNodes t setEndOfFork newTotalNodes) ∨
    ∃ e t', t.extendBTree io setEndOfFork newTotalNodes = (.error e, t') ∧
      (setEndOfFork t.fcbEOF (newTotalNodes * t.nodeSize % 2 ^ 32) = .error e ∨
        (∃ m ∈ chain, io t m = some e) ∨
        ∃ s added, Extending t s chain added ∧ ∃ m ∈ chain ++ added, io s m = some e) := by
  rw [BTree.extendBTree, grownNodes]
  by_cases done : newTotalNodes ≤ t.totalNodes
  · rw [if_pos done, if_pos done]
    have same : Extends t t chain [] := by
      refine ⟨fun _ _ => rfl, fun n mem => absurd mem not_mem_nil,
        (if_neg (not_lt.mpr mapped.covers)).symm, ?_, le_rfl,
        fun n mem => absurd mem not_mem_nil, fun b _ => ?_, fun _ _ => rfl, rfl⟩ <;>
      rw [append_nil]
      exact mapped
    exact .inl ⟨t, [], rfl, same, rfl⟩
  rw [if_neg done, if_neg done]
  obtain ⟨first, rest, split⟩ : ∃ first rest, chain = [] ++ first :: rest := by
    have head := mapped.head
    cases chain with
    | nil => cases head
    | cons first rest => exact ⟨first, rest, rfl⟩
  have enough : rest.length < t.totalNodes + 1 := by
    have length := mapped.length_le
    rw [split, nil_append, length_cons] at length
    omega
  rcases mapped.countMapBits io split enough with ⟨before, last, ends, counted⟩ | ⟨e, failed, reason⟩
  · have start : t.countMapBits io (t.totalNodes + 1) none 0 = .ok ⟨last, chainBits t.nodes before,
        recordBits t.nodes last, chainBits t.nodes chain⟩ := counted
    rw [start]
    subst ends
    dsimp only
    by_cases short : t.fcbEOF < newTotalNodes * t.nodeSize % 2 ^ 32
    · rw [if_pos short, if_pos short]
      cases called : setEndOfFork t.fcbEOF (newTotalNodes * t.nodeSize % 2 ^ 32) with
      | error e => exact .inr ⟨e, t, rfl, .inl rfl⟩
      | ok fcbEOF =>
        obtain ⟨longer, bound⟩ := callback _ _ _ called
        rcases mapped.addMapNodes io longer bound with done | ⟨e, t', failed, reason⟩
        · exact .inl done
        · exact .inr ⟨e, t', failed, .inr (.inr reason)⟩
    · rw [if_neg short, if_neg short]
      rcases mapped.addMapNodes io le_rfl mapped.eof_lt with done | ⟨e, t', failed, reason⟩
      · exact .inl done
      · exact .inr ⟨e, t', failed, .inr (.inr reason)⟩
  · have start : t.countMapBits io (t.totalNodes + 1) none 0 = .error e := failed
    rw [start]
    exact .inr ⟨e, t, rfl, .inr (.inl reason)⟩

end Extend

/-! ## Runs -/

section Run

variable {t t' : BTree R}

/-- The map bit of a node. -/
def nodeBit (t : BTree R) (n : ℕ) : Bool :=
  chainBit t.nodes (mapChain t) n

/-- A consistent tree file. -/
def Consistent (t : BTree R) : Prop :=
  Mapped t (mapChain t)

theorem Mapped.consistent {chain : List ℕ} (mapped : Mapped t chain) : Consistent t := by
  rw [Consistent, mapped.mapChain_eq]
  exact mapped

/-- A callback that sets the end of the file does not shorten it, and a file has less than `2 ^ 32`
bytes. -/
def Grows (setEndOfFork : ℕ → ℕ → Except BTErr ℕ) : Prop :=
  ∀ eof minEOF new, setEndOfFork eof minEOF = .ok new → eof ≤ new ∧ new < 2 ^ 32

/-- A successful call of `AllocateNode`, of `FreeNode` on an allocated node, or of `ExtendBTree`. -/
inductive Step : BTree R → BTree R → Prop where
  | allocate {t t' : BTree R} {io : FetchErrors R} {n : ℕ}
      (allocated : t.allocateNode io = (.ok n, t')) : Step t t'
  | free {t t' : BTree R} {io : FetchErrors R} {n : ℕ} (inside : n < t.totalNodes)
      (inUse : nodeBit t n = true) (freed : t.freeNode io n = (.ok (), t')) : Step t t'
  | extend {t t' : BTree R} {io : FetchErrors R} {setEndOfFork : ℕ → ℕ → Except BTErr ℕ}
      {newTotalNodes : ℕ} (grows : Grows setEndOfFork)
      (extended : t.extendBTree io setEndOfFork newTotalNodes = (.ok (), t')) : Step t t'

/-- A finite sequence of successful calls. -/
abbrev Run : BTree R → BTree R → Prop := Relation.ReflTransGen Step

variable {io : FetchErrors R}

theorem allocateNode_spec {n : ℕ} (consistent : Consistent t)
    (allocated : t.allocateNode io = (.ok n, t')) : Allocates t t' (mapChain t) n := by
  rcases Mapped.allocateNode consistent io with ⟨k, s, done, spec⟩ | ⟨e, failed, -⟩
  · rw [done] at allocated
    obtain ⟨same, rfl⟩ := Prod.mk.inj allocated
    cases same
    exact spec
  · rw [failed] at allocated
    cases (Prod.mk.inj allocated).1

theorem freeNode_spec {n : ℕ} (consistent : Consistent t)
    (inside : n < t.totalNodes) (inUse : nodeBit t n = true)
    (freed : t.freeNode io n = (.ok (), t')) : Frees t t' (mapChain t) n := by
  rcases Mapped.freeNode consistent io inside inUse with ⟨s, done, spec⟩ | ⟨e, failed, -⟩
  · rw [done] at freed
    obtain ⟨-, rfl⟩ := Prod.mk.inj freed
    exact spec
  · rw [failed] at freed
    cases (Prod.mk.inj freed).1

theorem extendBTree_spec {setEndOfFork : ℕ → ℕ → Except BTErr ℕ}
    {newTotalNodes : ℕ} (consistent : Consistent t) (grows : Grows setEndOfFork)
    (extended : t.extendBTree io setEndOfFork newTotalNodes = (.ok (), t')) :
    ∃ added, Extends t t' (mapChain t) added ∧
      t'.totalNodes = grownNodes t setEndOfFork newTotalNodes := by
  rcases Mapped.extendBTree consistent io setEndOfFork grows newTotalNodes with
    ⟨s, added, done, spec⟩ | ⟨e, s, failed, -⟩
  · rw [done] at extended
    obtain ⟨-, rfl⟩ := Prod.mk.inj extended
    exact ⟨added, spec⟩
  · rw [failed] at extended
    cases (Prod.mk.inj extended).1

theorem Step.consistent (consistent : Consistent t) (step : Step t t') : Consistent t' := by
  cases step with
  | allocate allocated => exact (allocateNode_spec consistent allocated).mapped.consistent
  | free inside inUse freed =>
    exact (freeNode_spec consistent inside inUse freed).mapped.consistent
  | extend grows extended =>
    obtain ⟨added, spec, -⟩ := extendBTree_spec consistent grows extended
    exact spec.mapped.consistent

theorem Run.consistent (consistent : Consistent t) (run : Run t t') : Consistent t' := by
  induction run with
  | refl => exact consistent
  | tail _ step ih => exact step.consistent ih

/-- Along every run of successful calls from a consistent tree file the file stays consistent, so
its free node count is the number of clear map bits; and the next call does what it should.
`AllocateNode` returns the first node whose bit is clear and sets that bit alone, `FreeNode` clears
the bit of its node alone, and `ExtendBTree` appends map nodes, all allocated, until the map covers
the nodes, without touching the bits of the old nodes. -/
theorem nodeMap_invariant {start : BTree R} (consistent : Consistent start) (run : Run start t) :
    Consistent t ∧
    t.freeNodes = {b ∈ Finset.range t.totalNodes | nodeBit t b = false}.card ∧
    (∀ io t' n, t.allocateNode io = (.ok n, t') →
      n < t.totalNodes ∧ nodeBit t n = false ∧ (∀ b < n, nodeBit t b = true) ∧
        ∀ b, nodeBit t' b = if b = n then true else nodeBit t b) ∧
    (∀ io t' n, n < t.totalNodes → nodeBit t n = true → t.freeNode io n = (.ok (), t') →
      ∀ b, nodeBit t' b = if b = n then false else nodeBit t b) ∧
    ∀ io setEndOfFork newTotalNodes t', Grows setEndOfFork →
      t.extendBTree io setEndOfFork newTotalNodes = (.ok (), t') →
      t'.totalNodes ≤ chainBits t'.nodes (mapChain t') ∧
        (∃ added, mapChain t' = mapChain t ++ added ∧ ∀ n ∈ added, nodeBit t' n = true) ∧
        ∀ b < t.totalNodes, nodeBit t' b = nodeBit t b := by
  have mapped := Run.consistent consistent run
  refine ⟨mapped, mapped.freeNodes, ?_, ?_, ?_⟩
  · intro io t' n allocated
    have spec := allocateNode_spec mapped allocated
    have chain := spec.mapped.mapChain_eq
    refine ⟨spec.inside, spec.clear, spec.lowest, fun b => ?_⟩
    rw [nodeBit, nodeBit, chain]
    exact spec.sets b
  · intro io t' n inside inUse freed b
    have spec := freeNode_spec mapped inside inUse freed
    rw [nodeBit, nodeBit, spec.mapped.mapChain_eq]
    exact spec.clears b
  · intro io setEndOfFork newTotalNodes t' grows extended
    obtain ⟨added, spec, -⟩ := extendBTree_spec mapped grows extended
    have chain := spec.mapped.mapChain_eq
    refine ⟨?_, ⟨added, chain, fun n mem => ?_⟩, fun b below => ?_⟩
    · rw [chain]
      exact spec.mapped.covers
    · rw [nodeBit, chain]
      exact spec.marked n mem
    · rw [nodeBit, nodeBit, chain]
      exact spec.kept b below

/-- A tree file of four nodes in which the header node alone is allocated. -/
def smallFile : BTree Unit where
  nodeSize := 512
  maxKeyLength := 37
  bigKeys := false
  variableIndexKeys := false
  treeDepth := 0
  rootNode := 0
  leafRecords := 0
  firstLeafNode := 0
  lastLeafNode := 0
  totalNodes := 4
  freeNodes := 3
  fcbEOF := 2048
  nodes := fun n =>
    if n = 0 then
      { Node.cleared with
        kind := .header, mapSize := 256, mapWords := fun i => if i = 0 then 0x8000#16 else 0#16 }
    else Node.cleared

theorem smallFile_consistent : Consistent smallFile := by
  have chain : mapChain smallFile = [0] := rfl
  rw [Consistent, chain]
  constructor
  case unused =>
    intro b past
    rw [chainBit]
    split_ifs with inside
    · -- The first word has one bit set, all other words are clear.
      by_cases first : b < 16
      · have free : ∀ b < 16, 4 ≤ b → bit (smallFile.nodes 0).mapWords b = false := by
          decide +kernel
        exact free b first past
      · have word : b / 16 ≠ 0 := by omega
        have clear : (smallFile.nodes 0).mapWords (b / 16) = 0#16 := if_neg word
        have unset : bit (smallFile.nodes 0).mapWords b = false := by
          rw [bit, clear]
          simp
        exact unset
    · rfl
  case map => exact fun n mem => absurd mem not_mem_nil
  case linked => exact rfl
  case freeNodes => decide +kernel
  all_goals decide

/-- The invariant on a run of one allocation, which returns node 1. -/
theorem nodeMap_invariant_small :
    (smallFile.allocateNode fun _ _ => none).1 = .ok 1 ∧
    Consistent (smallFile.allocateNode fun _ _ => none).2 ∧
    (smallFile.allocateNode fun _ _ => none).2.freeNodes = 2 := by
  have returned : (smallFile.allocateNode fun _ _ => none).1 = .ok 1 := by decide +kernel
  have run : Run smallFile (smallFile.allocateNode fun _ _ => none).2 :=
    .single (.allocate (Prod.ext returned rfl))
  exact ⟨returned, (nodeMap_invariant smallFile_consistent run).1, by decide +kernel⟩

end Run

end Darwin.Hfs.NodeMap
