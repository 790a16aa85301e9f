import Darwin.Netinfo.Server.Checksum
import Darwin.Netinfo.Transfer.Copy

/-!
# The check of a transferred database

Opening the files marks the directories below the root with their instances, frees the others and
cuts the collection off after the last directory.  A directory whose instance is `NI_INDEX_NULL`
looks like one that was not reached, and is freed as well.

## Main definitions

* `Reproduces` - the files have the directories of the master below the root, and no others

## Main results

* `transfer_reproduces` - when the clone has the database of the master after a transfer
-/

namespace Darwin.Netinfo.Transfer

open List Darwin.Lib Relation Option
open Function (update update_eq_self update_idem update_of_ne update_self)

variable {s : Store} {encode : Object → Bytes} {codec : Codec Object} {f f' : Files} {i j n : ℕ}
  {obj : Object} {present : Set ℕ} {w again : Writes}

/-! ## Reading a record -/

section Reading

theorem decodeLong_of_isPrefix {a : ℕ} {bytes : Bytes} (small : a < 2 ^ 32)
    (begins : encodeLong a <+: bytes) : ∃ rest, decodeLong bytes = some (a, rest) := by
  obtain ⟨rest, rfl⟩ := begins
  exact ⟨rest, decodeLong_encodeLong small rest⟩

/-- `file_read` goes by the record. -/
theorem fileRead_record (lt : i < f.highestId) :
    fileRead codec dflBlocksize f.highestId f.disk i = readRecord codec i (f.record i) := by
  rw [fileRead, if_neg (not_le.mpr lt), Files.record]
  cases f.disk.extension i with
  | none => rfl
  | some bytes => rfl

variable (lawful : Lawful encode codec s)

include lawful

theorem fileRead_held (sound : Sound s)
    (there : s.dir i = some obj) (held : Begins f i (encode obj)) (lt : i < f.highestId) :
    fileRead codec dflBlocksize f.highestId f.disk i = some obj := by
  have own := id_of_dir there
  have not_free : i ≠ dbFree := ((lt_of_dir there).trans sound.highestId_lt).ne
  obtain ⟨more, record⟩ := held.isPrefix
  rw [fileRead_record lt, ← record, readRecord, lawful.inverse i obj more there]
  dsimp only
  rw [lawful.objectId, own, if_neg not_free, if_neg (not_not.mpr rfl)]

theorem fileRead_free (free : Begins f i (encodeLong dbFree)) :
    fileRead codec dflBlocksize f.highestId f.disk i = none := by
  by_cases lt : i < f.highestId
  · rw [fileRead_record lt, readRecord]
    cases decoded : codec.decode (f.record i) with
    | none => rfl
    | some found =>
      -- a record that starts with the word of a free one has no other id
      obtain ⟨small, rest, record⟩ := lawful.header _ _ decoded
      obtain ⟨more, record'⟩ := free.isPrefix
      have same : found.id.object = dbFree := by
        have first := decodeLong_encodeLong small (encodeLong found.id.inst ++ rest)
        rw [← append_assoc, ← record, ← record', decodeLong_encodeLong (by decide)] at first
        exact (Prod.mk.inj (some.inj first)).1.symm
      dsimp only
      rw [lawful.objectId, if_pos same]
  · rw [fileRead, if_pos (not_lt.mp lt)]

/-- What can be read is what is there. -/
theorem Written.fileRead_eq (sound : Sound s)
    (written : Written s encode present f) (known : ∀ i ∈ present, ∃ obj, s.dir i = some obj) :
    fileRead codec dflBlocksize f.highestId f.disk i = some obj ↔
      i ∈ present ∧ s.dir i = some obj := by
  constructor
  · intro read
    by_cases mem : i ∈ present
    · obtain ⟨obj', there⟩ := known i mem
      have held := fileRead_held lawful sound there (written.held i mem obj' there)
        (written.inside i mem)
      rw [read] at held
      cases held
      exact ⟨mem, there⟩
    · by_cases lt : i < f.highestId
      · rw [fileRead_free lawful (written.free i mem lt)] at read
        cases read
      · rw [fileRead, if_pos (not_lt.mp lt)] at read
        cases read
  · rintro ⟨mem, there⟩
    exact fileRead_held lawful sound there (written.held i mem obj there) (written.inside i mem)

/-- `file_objectid` of a directory. -/
theorem objectid_held (there : s.dir i = some obj)
    (held : Begins f i (encode obj)) : (f.objectid i).1 = i ∧ (f.objectid i).2 < 2 ^ 32 := by
  obtain ⟨more, record⟩ := held.isPrefix
  obtain ⟨small, rest, header⟩ := lawful.header _ _ (lawful.inverse i obj more there)
  have own := id_of_dir there
  rw [Files.objectid, ← record, header, append_assoc, decodeLong_encodeLong small]
  refine ⟨own, ?_⟩
  dsimp only
  cases decoded : decodeLong (encodeLong obj.id.inst ++ rest) with
  | none => decide
  | some read => exact (decodeLong_lt decoded).1

omit lawful

theorem objectid_free (free : Begins f i (encodeLong dbFree)) : (f.objectid i).1 = dbFree := by
  obtain ⟨rest, decoded⟩ := decodeLong_of_isPrefix (by decide) free.isPrefix
  rw [Files.objectid, decoded]

end Reading

/-! ## Marking -/

section Marking

/-- The same files, with the instances of these directories. -/
structure Marks (s : Store) (visited : Set ℕ) (f f' : Files) : Prop where
  disk : f'.disk = f.disk
  highestId : f'.highestId = f.highestId
  marked : ∀ i ∈ visited, ∀ obj, s.dir i = some obj → f'.instances i = obj.id.inst
  others : ∀ i ∉ visited, f'.instances i = f.instances i

theorem Marks.refl (s : Store) (f : Files) : Marks s ∅ f f where
  disk := rfl
  highestId := rfl
  marked := fun _ mem => mem.elim
  others := fun _ _ => rfl

theorem Marks.trans {f'' : Files} {first second : Set ℕ} (marks : Marks s first f f')
    (marks' : Marks s second f' f'') : Marks s (first ∪ second) f f'' where
  disk := marks'.disk.trans marks.disk
  highestId := marks'.highestId.trans marks.highestId
  marked := by
    intro i mem obj there
    by_cases again : i ∈ second
    · exact marks'.marked i again obj there
    · rw [marks'.others i again]
      exact marks.marked i (mem.resolve_right again) obj there
  others := fun i absent => by
    rw [marks'.others i fun mem => absent (.inr mem), marks.others i fun mem => absent (.inl mem)]

/-- `readit` marks the directories below one, on any files with this disk. -/
def Visits (codec : Codec Object) (s : Store) (f₀ : Files) (n i : ℕ) : Prop :=
  ∀ f, f.disk = f₀.disk → f.highestId = f₀.highestId →
    ∃ f', readit codec n i f = some (true, f') ∧ Marks s {j | Below s i j} f f'

/-- The loop of `readit` over the children. -/
theorem readit_children {f₀ : Files} {children : List ℕ}
    (each : ∀ c ∈ children, ∃ depth, ∀ n, depth ≤ n → Visits codec s f₀ n c) :
    ∃ depth, ∀ n, depth ≤ n → ∀ f, f.disk = f₀.disk → f.highestId = f₀.highestId →
      ∃ f', children.foldl (fun f? c => f?.bind fun f => (readit codec n c f).map Prod.snd)
        (some f) = some f' ∧ Marks s {j | ∃ c ∈ children, Below s c j} f f' := by
  induction children with
  | nil =>
    refine ⟨0, fun n _ f _ _ => ⟨f, rfl, ?_⟩⟩
    have none : {j | ∃ c ∈ ([] : List ℕ), Below s c j} = ∅ := by
      ext j
      simp
    rw [none]
    exact .refl s f
  | cons c children ih =>
    obtain ⟨depth₁, visits₁⟩ := each c mem_cons_self
    obtain ⟨depth₂, visits₂⟩ := ih fun c mem => each c (mem_cons_of_mem _ mem)
    refine ⟨max depth₁ depth₂, fun n deep f disk highest => ?_⟩
    obtain ⟨f₁, visited₁, marks₁⟩ := visits₁ n (le_trans (le_max_left _ _) deep) f disk
      highest
    obtain ⟨f₂, visited₂, marks₂⟩ := visits₂ n (le_trans (le_max_right _ _) deep) f₁
      (marks₁.disk.trans disk) (marks₁.highestId.trans highest)
    have both : {j | ∃ d ∈ c :: children, Below s d j} =
        {j | Below s c j} ∪ {j | ∃ d ∈ children, Below s d j} := by
      ext j
      simp only [mem_cons, Set.mem_union, Set.mem_ofPred_eq, exists_eq_or_imp]
    refine ⟨f₂, ?_, ?_⟩
    · rw [foldl_cons, bind_some, visited₁, map_some]
      exact visited₂
    · rw [both]
      exact marks₁.trans marks₂

/-- `readit` marks the directories below one, if they have been written. -/
theorem readit_spec (lawful : Lawful encode codec s) (sound : Sound s) (tree : s.Tree) {f₀ : Files}
    (written : Written s encode present f₀) (i : ℕ) :
    (∃ obj, s.dir i = some obj) → (∀ j, Below s i j → j ∈ present) →
    ∃ depth, ∀ n, depth ≤ n → Visits codec s f₀ n i := by
  have finite : ∀ i b, s.dir i = some b → i ∈ Finset.range s.highestId := fun i b there =>
    Finset.mem_range.mpr (dir_eq_some_iff.mp there).1
  refine tree.induction (P := fun i => (∃ obj, s.dir i = some obj) →
    (∀ j, Below s i j → j ∈ present) → ∃ depth, ∀ n, depth ≤ n → Visits codec s f₀ n i)
    finite ?_ i
  rintro i ih ⟨obj, there⟩ inside
  obtain ⟨depth, visits⟩ := @readit_children s codec f₀ obj.children fun c mem => by
    have listed : s.Lists i c := lists_of_eq_some there mem
    obtain ⟨child, child_there, -⟩ := tree.child i c listed
    exact ih c listed ⟨child, child_there⟩ fun j below => inside j (.head listed below)
  refine ⟨depth + 1, fun n deep f disk highest => ?_⟩
  obtain ⟨n, rfl⟩ := Nat.exists_eq_add_of_le' (le_trans (Nat.le_add_left 1 depth) deep)
  -- the directory is read from its record, whatever was marked before
  have mem := inside i .refl
  have read : fileRead codec dflBlocksize f.highestId f.disk i = some obj := by
    rw [disk, highest]
    exact fileRead_held lawful sound there (written.held i mem obj there) (written.inside i mem)
  have marks : Marks s {i} f
      { f with instances := update f.instances i obj.id.inst } := by
    refine ⟨rfl, rfl, fun j mem obj' there' => ?_, fun j absent => ?_⟩
    · obtain rfl := Set.mem_singleton_iff.mp mem
      cases there.symm.trans there'
      exact update_self _ _ _
    · exact update_of_ne absent _ _
  obtain ⟨f', visited, marks'⟩ := visits n (Nat.le_of_succ_le_succ deep) _
    (marks.disk.trans disk) (marks.highestId.trans highest)
  have below : {j | Below s i j} = {i} ∪ {j | ∃ c ∈ obj.children, Below s c j} := by
    ext j
    constructor
    · intro below
      rcases ReflTransGen.cases_head below with rfl | ⟨c, listed, below⟩
      · exact .inl rfl
      · exact .inr ⟨c, (lists_iff there).mp listed, below⟩
    · rintro (rfl | ⟨c, mem, below⟩)
      · exact .refl
      · exact .head (lists_of_eq_some there mem) below
  refine ⟨f', ?_, below ▸ marks.trans marks'⟩
  rw [readit, Files.read, read]
  dsimp only
  rw [visited]
  rfl

end Marking

/-! ## Freeing -/

section Freeing

/-- An encoded free object starts with the word of a free id. -/
theorem freeObject_prefix (lawful : Lawful encode codec s) {inst : ℕ} (small : inst < 2 ^ 32) :
    encodeLong dbFree <+: encode (freeObject inst) := by
  have decoded := lawful.free inst [] small
  rw [append_nil] at decoded
  obtain ⟨-, rest, header⟩ := lawful.header _ _ decoded
  rw [header, append_assoc]
  exact prefix_append _ _

/-- `file_idunalloc` makes a record free. -/
theorem Written.idunalloc (lawful : Lawful encode codec s) (written : Written s encode present f)
    (lt : i < f.highestId) {inst : ℕ} (small : inst < 2 ^ 32) :
    Written s encode (present \ {i}) (f.idunalloc encode i inst) := by
  have begins := freeObject_prefix lawful small
  have short := lawful.small inst
  have first : firstWord (encode (freeObject inst)) = encodeLong dbFree := by
    obtain ⟨rest, mem⟩ := begins
    rw [firstWord, ← mem, append_assoc]
    exact take_left' rfl
  obtain ⟨block, is_block, full, block_begins⟩ : ∃ block, block = encode (freeObject inst) ++
        List.replicate (dflBlocksize - (encode (freeObject inst)).length) 0 ∧
      block.length = dflBlocksize ∧ encodeLong dbFree <+: block := by
    refine ⟨_, rfl, ?_, begins.trans (prefix_append _ _)⟩
    rw [length_append, length_replicate]
    omega
  obtain ⟨f', made, collection, extension, highest⟩ : ∃ f', f' = f.idunalloc encode i inst ∧
      f'.disk.collection = writeAt 0 f.disk.collection (i * dflBlocksize) block ∧
      f'.disk.extension = update f.disk.extension i none ∧
      f'.highestId = f.highestId := by
    refine ⟨_, rfl, ?_, ?_, rfl⟩
    · rw [Files.idunalloc, storeOps, if_pos short, if_pos (.inl first), is_block]
      rfl
    · rw [Files.idunalloc, storeOps, if_pos short, if_pos (.inl first)]
      rfl
  rw [← made]
  have other : ∀ {j mem}, j ≠ i → Begins f j mem → Begins f' j mem := fun ne begins => by
    refine begins.of_write ne ?_ full.le collection
    rw [extension, update_of_ne ne]
  refine ⟨?_, fun j mem => ?_, fun j mem obj there => ?_, fun j absent lt' => ?_,
    fun j bytes is_extension => ?_⟩
  · have inside : i * dflBlocksize + block.length ≤ f.highestId * dflBlocksize := by
      rw [full, ← Nat.succ_mul]
      exact Nat.mul_le_mul_right _ lt
    rw [collection, length_writeAt, written.length, highest, Nat.max_eq_left inside]
  · rw [highest]
    exact written.inside j mem.1
  · exact other mem.2 (written.held j mem.1 obj there)
  · rw [highest] at lt'
    rcases eq_or_ne j i with rfl | ne
    · refine begins_iff.mpr (.inl ⟨?_, by decide, ?_⟩)
      · rw [extension, update_self]
      · rw [collection, drop_writeAt_self]
        exact block_begins.trans (prefix_append _ _)
    · exact other ne (written.free j (fun mem => absent ⟨mem, ne⟩) lt')
  · rcases eq_or_ne j i with rfl | ne
    · rw [extension, update_self] at is_extension
      cases is_extension
    · rw [extension, update_of_ne ne] at is_extension
      obtain ⟨mem, large⟩ := written.large j bytes is_extension
      exact ⟨⟨mem, ne⟩, large⟩

/-- Nothing is lost by cutting off free records. -/
theorem Written.truncate {last : ℕ} (written : Written s encode present f) (lt : last < f.highestId)
    (highest : ∀ i ∈ present, i ≤ last) : Written s encode present (f.truncate last) := by
  have keep : ∀ {j mem}, j ≤ last → Begins f j mem → Begins (f.truncate last) j mem := by
    intro j mem le begins
    refine begins.of_block rfl ?_
    have room : dflBlocksize ≤ (last + 1) * dflBlocksize - j * dflBlocksize := by
      have order : (j + 1) * dflBlocksize ≤ (last + 1) * dflBlocksize :=
        Nat.mul_le_mul_right _ (Nat.succ_le_succ le)
      rw [Nat.succ_mul j] at order
      omega
    rw [Files.truncate, drop_take]
    exact take_prefix_take_left room
  refine ⟨?_, fun j mem => Nat.lt_succ_of_le (highest j mem), fun j mem obj there =>
    keep (highest j mem) (written.held j mem obj there), fun j absent lt' => ?_, written.large⟩
  · rw [Files.truncate, length_take, written.length]
    exact Nat.min_eq_left (Nat.mul_le_mul_right _ lt)
  · have le := Nat.le_of_lt_succ lt'
    exact keep le (written.free j absent (le.trans_lt lt))

end Freeing

/-! ## The loop over the ids -/

section Loop

/-- The ids whose instances say that they are not in use. -/
abbrev unmarked (f : Files) : Set ℕ := {i | f.instances i = niIndexNull}

/-- What the loop of `checkdb` has made of the files when it comes to an id. -/
structure Checked (s : Store) (encode : Object → Bytes) (present : Set ℕ) (f₀ : Files) (n : ℕ)
    (state : Files × Option ℕ) : Prop where
  written : Written s encode (present \ (unmarked f₀ ∩ {i | i < n})) state.1
  highestId : state.1.highestId = f₀.highestId
  instances : state.1.instances = f₀.instances
  nothing : state.2 = none → ∀ i < n, i ∈ unmarked f₀
  latest : ∀ last, state.2 = some last → last < n ∧ ∀ i < n, i ∉ unmarked f₀ → i ≤ last

theorem Checked.step {f₀ : Files} {state : Files × Option ℕ} (lawful : Lawful encode codec s)
    (sound : Sound s) (known : ∀ i ∈ present, ∃ obj, s.dir i = some obj)
    (checked : Checked s encode present f₀ n state) (lt : n < f₀.highestId) :
    Checked s encode present f₀ (n + 1) (checkOne encode state n) := by
  obtain ⟨written, highest, instances, nothing, latest⟩ := checked
  obtain ⟨f, last⟩ := state
  rw [← highest] at lt
  by_cases marked : f.instances n = niIndexNull
  · have unmarked_n : n ∈ unmarked f₀ := by
      rw [instances] at marked
      exact marked
    have next : present \ (unmarked f₀ ∩ {i | i < n + 1}) =
        (present \ (unmarked f₀ ∩ {i | i < n})) \ {n} := by
      ext i
      constructor
      · rintro ⟨mem, kept⟩
        refine ⟨⟨mem, fun done => kept ⟨done.1, Nat.lt_succ_of_lt done.2⟩⟩, ?_⟩
        rintro rfl
        exact kept ⟨unmarked_n, Nat.lt_succ_self _⟩
      · rintro ⟨⟨mem, kept⟩, ne⟩
        refine ⟨mem, fun done => kept ⟨done.1, ?_⟩⟩
        exact (Nat.lt_succ_iff_lt_or_eq.mp done.2).resolve_right ne
    have freed : ∃ f', f' = (if (f.objectid n).1 ≠ dbFree then
        f.idunalloc encode (f.objectid n).1 (f.objectid n).2 else f) ∧
        Written s encode (present \ (unmarked f₀ ∩ {i | i < n + 1})) f' ∧
        f'.highestId = f.highestId ∧
        update f'.instances n niIndexNull = f.instances := by
      refine ⟨_, rfl, ?_⟩
      have still : update f.instances n niIndexNull = f.instances := by
        rw [← marked, update_eq_self]
      by_cases mem : n ∈ present \ (unmarked f₀ ∩ {i | i < n})
      · obtain ⟨obj, there⟩ := known n mem.1
        obtain ⟨own, small⟩ := objectid_held lawful there (written.held n mem obj there)
        have not_free : n ≠ dbFree := ((lt_of_dir there).trans sound.highestId_lt).ne
        rw [own, if_pos not_free, next]
        refine ⟨written.idunalloc lawful lt small, rfl, ?_⟩
        rw [Files.idunalloc, update_idem]
        exact still
      · rw [if_neg (not_not.mpr (objectid_free (written.free n mem lt))), next,
          Set.sdiff_singleton_eq_self mem]
        exact ⟨written, rfl, still⟩
    obtain ⟨f', made, written', highest', instances'⟩ := freed
    rw [checkOne]
    rw [if_pos marked, ← made]
    refine ⟨⟨written'.length, written'.inside, fun i mem obj there =>
      (written'.held i mem obj there).of_disk rfl, fun i absent lt =>
      (written'.free i absent lt).of_disk rfl, written'.large⟩, highest'.trans highest,
      instances'.trans instances, fun no_last i lt => ?_, fun m is_last => ?_⟩
    · rcases Nat.lt_succ_iff_lt_or_eq.mp lt with lt | rfl
      · exact nothing no_last i lt
      · exact unmarked_n
    obtain ⟨below, above⟩ := latest m is_last
    refine ⟨Nat.lt_succ_of_lt below, fun i lt marked' => ?_⟩
    rcases Nat.lt_succ_iff_lt_or_eq.mp lt with lt | rfl
    · exact above i lt marked'
    · exact absurd unmarked_n marked'
  · have next : present \ (unmarked f₀ ∩ {i | i < n + 1}) =
        present \ (unmarked f₀ ∩ {i | i < n}) := by
      ext i
      simp only [Set.mem_sdiff, Set.mem_inter_iff, Set.mem_ofPred_eq]
      refine and_congr_right fun _ => not_congr (and_congr_right fun null => ?_)
      rw [Nat.lt_succ_iff_lt_or_eq]
      refine or_iff_left ?_
      rintro rfl
      rw [instances] at marked
      exact marked null
    rw [checkOne]
    dsimp only
    rw [if_neg marked]
    refine ⟨next ▸ written, highest, instances, fun no_last => ?_, fun m is_last => ?_⟩
    · cases no_last
    · cases is_last
      exact ⟨Nat.lt_succ_self _, fun i lt _ => Nat.le_of_lt_succ lt⟩

/-- The loop to its end. -/
theorem checked_all (lawful : Lawful encode codec s) (sound : Sound s)
    (known : ∀ i ∈ present, ∃ obj, s.dir i = some obj) (written : Written s encode present f)
    (le : n ≤ f.highestId) :
    Checked s encode present f n ((List.range n).foldl (checkOne encode) (f, none)) := by
  induction n with
  | zero =>
    have start : present \ (unmarked f ∩ {i | i < 0}) = present := by
      ext i
      simp
    refine ⟨?_, rfl, rfl, fun _ i lt => (Nat.not_lt_zero i lt).elim, fun last is_last => ?_⟩
    · rw [start]
      exact written
    · cases is_last
  | succ n ih =>
    rw [range_succ, foldl_append]
    exact (ih (Nat.le_of_succ_le le)).step lawful sound known le

end Loop

/-! ## The transfer -/

section Transfer

/-- The directories of a store that can be reached from the root. -/
abbrev reached (s : Store) : Set ℕ := {i | (∃ obj, s.dir i = some obj) ∧ Below s 0 i}

/-- The directories that are found where their instance is not the one of a free id. -/
abbrev kept (s : Store) : Set ℕ :=
  {i | ∃ obj, s.dir i = some obj ∧ Below s 0 i ∧ obj.id.inst ≠ niIndexNull}

/-- The clone has the directories of the master that can be reached from the root, and in memory
their instances.  Every other id is free. -/
structure Reproduces (s : Store) (codec : Codec Object) (f : Files) : Prop where
  same : ∀ i obj, fileRead codec dflBlocksize f.highestId f.disk i = some obj ↔
    s.dir i = some obj ∧ Below s 0 i
  instances : ∀ i obj, s.dir i = some obj → Below s 0 i → f.instances i = obj.id.inst
  free : ∀ i < f.highestId, ¬ (∃ obj, s.dir i = some obj ∧ Below s 0 i) →
    f.instances i = niIndexNull ∧ (f.objectid i).1 = dbFree

/-- What is below a directory is there. -/
theorem exists_of_below (tree : s.Tree) (there : ∃ obj, s.dir i = some obj) (below : Below s i j) :
    ∃ obj, s.dir j = some obj := by
  rcases ReflTransGen.cases_tail below with rfl | ⟨k, -, listed⟩
  · exact there
  · obtain ⟨child, child_there, -⟩ := tree.child k j listed
    exact ⟨child, child_there⟩

/-- `checkdb` of files that hold what can be reached keeps the directories whose instances do not
look free. -/
theorem checkdb_spec (lawful : Lawful encode codec s) (sound : Sound s) (tree : s.Tree)
    (root : s.dir 0 = some obj) (written : Written s encode (reached s) f)
    (unread : ∀ i, f.instances i = niIndexNull) :
    ∃ depth, ∀ n, depth ≤ n → ∃ f', checkdb encode codec n f = some f' ∧
      Written s encode (kept s) f' ∧
      (∀ i obj, s.dir i = some obj → Below s 0 i → f'.instances i = obj.id.inst) ∧
      ∀ i, i ∉ reached s → f'.instances i = niIndexNull := by
  obtain ⟨depth, visits⟩ := readit_spec lawful sound tree written 0 ⟨obj, root⟩ fun j below =>
    ⟨exists_of_below tree ⟨obj, root⟩ below, below⟩
  refine ⟨depth, fun n deep => ?_⟩
  obtain ⟨f₁, visited, marks⟩ := visits n deep f rfl rfl
  have marked : ∀ i obj, s.dir i = some obj → Below s 0 i → f₁.instances i = obj.id.inst :=
    fun i obj there below => marks.marked i below obj there
  have others : ∀ i, i ∉ reached s → f₁.instances i = niIndexNull := fun i absent => by
    rw [marks.others i fun below => absent ⟨exists_of_below tree ⟨obj, root⟩ below, below⟩]
    exact unread i
  have written₁ : Written s encode (reached s) f₁ := by
    obtain ⟨disk, highest, -, -⟩ := marks
    refine ⟨?_, fun i mem => ?_, fun i mem obj there => (written.held i mem obj there).of_disk disk,
      fun i absent lt => ?_, ?_⟩
    · rw [disk, highest]
      exact written.length
    · rw [highest]
      exact written.inside i mem
    · rw [highest] at lt
      exact (written.free i absent lt).of_disk disk
    · rw [disk]
      exact written.large
  obtain ⟨written₂, highest, instances, nothing, latest⟩ :=
    checked_all lawful sound (fun i mem => mem.1) written₁ le_rfl
  have rest : reached s \ (unmarked f₁ ∩ {i | i < f₁.highestId}) = kept s := by
    ext i
    constructor
    · rintro ⟨⟨⟨obj, there⟩, below⟩, not_freed⟩
      refine ⟨obj, there, below, fun null => not_freed ⟨?_, written₁.inside i ⟨⟨obj, there⟩, below⟩⟩⟩
      exact (marked i obj there below).trans null
    · rintro ⟨obj, there, below, not_null⟩
      exact ⟨⟨⟨obj, there⟩, below⟩, fun freed => not_null ((marked i obj there below).symm.trans freed.1)⟩
  rw [rest] at written₂
  rw [checkdb, visited]
  dsimp only
  generalize (List.range f₁.highestId).foldl (checkOne encode) (f₁, none) = state at *
  obtain ⟨f₂, last?⟩ := state
  rw [← instances] at marked others
  cases last? with
  | none => exact ⟨f₂, rfl, written₂, marked, others⟩
  | some last =>
    obtain ⟨lt, above⟩ := latest last rfl
    refine ⟨f₂.truncate last, rfl, written₂.truncate (highest ▸ lt) ?_, marked, others⟩
    rintro i ⟨obj, there, below, not_null⟩
    refine above i (written₁.inside i ⟨⟨obj, there⟩, below⟩) fun null => not_null ?_
    rw [unmarked, Set.mem_ofPred_eq, ← instances] at null
    exact (marked i obj there below).symm.trans null

/-- `file_init` finds as many blocks as were written. -/
theorem Written.highestId_disk (written : Written s encode present f) :
    Netinfo.highestId dflBlocksize f.disk = f.highestId := by
  rw [Netinfo.highestId, written.length, dflBlocksize]
  omega

/-- A clone that has received a whole database reproduces it if and only if the checksum of the
master is not zero and no directory that can be reached has the instance `NI_INDEX_NULL`. -/
theorem transfer_reproduces (lawful : Lawful encode codec s) (sound : Sound s) (tree : s.Tree)
    (root : s.dir 0 = some obj) (w again : Writes) (dbChecksum : ℕ) :
    ∃ depth, ∀ n, depth ≤ n → ∃ f, transfer encode codec n w again s dbChecksum = some f ∧
      (Reproduces s codec f ↔ dbChecksum ≠ 0 ∧
        ∀ i obj, s.dir i = some obj → Below s 0 i → obj.id.inst ≠ niIndexNull) := by
  obtain ⟨depth₁, objects, highest, sent, bound, all⟩ :=
    @readall_spec s obj w again sound tree root dbChecksum
  by_cases zero : dbChecksum = 0
  · -- nothing is written, and an empty database is opened without a check
    refine ⟨depth₁, fun n deep => ⟨Files.new, ?_, ?_⟩⟩
    · rw [transfer, all n deep, bind_some, writeall, if_pos zero, fileInit,
        (written_new s encode).highestId_disk]
      exact if_pos rfl
    refine iff_of_false (fun reproduces => ?_) fun good => good.1 zero
    have read := (reproduces.same 0 obj).mpr ⟨root, .refl⟩
    rw [fileRead, if_pos (show 0 ≥ Files.new.highestId from le_refl 0)] at read
    cases read
  · have written := @writeall_spec s encode ⟨dbChecksum, highest, objects⟩ sent bound zero
    generalize made : (writeall encode ⟨dbChecksum, highest, objects⟩).2 = f₀ at written
    have written' : Written s encode (reached s) ⟨f₀.disk, f₀.highestId, fun _ => niIndexNull⟩ :=
      ⟨written.length, written.inside, fun i mem obj there =>
        (written.held i mem obj there).of_disk rfl, fun i absent lt =>
        (written.free i absent lt).of_disk rfl, written.large⟩
    obtain ⟨depth₂, checked⟩ := checkdb_spec lawful sound tree root written' fun _ => rfl
    refine ⟨max depth₁ depth₂, fun n deep => ?_⟩
    obtain ⟨f, opened, written'', marked, others⟩ :=
      checked n (le_trans (le_max_right _ _) deep)
    refine ⟨f, ?_, ?_⟩
    · have positive : f₀.highestId ≠ 0 :=
        (Nat.lt_of_le_of_lt (Nat.zero_le _) (written.inside 0 ⟨⟨obj, root⟩, .refl⟩)).ne'
      rw [transfer, all n (Nat.le_trans (Nat.le_max_left _ _) deep), bind_some, made,
        fileInit, written.highestId_disk]
      dsimp only
      rw [if_neg positive]
      exact opened
    · have read : ∀ i obj, fileRead codec dflBlocksize f.highestId f.disk i = some obj ↔
          i ∈ kept s ∧ s.dir i = some obj := fun i obj =>
        written''.fileRead_eq lawful sound fun i mem => mem.imp fun _ there => there.1
      constructor
      · intro reproduces
        refine ⟨zero, fun i obj there below => ?_⟩
        obtain ⟨⟨obj', there', -, not_null⟩, -⟩ :=
          (read i obj).mp ((reproduces.same i obj).mpr ⟨there, below⟩)
        cases there.symm.trans there'
        exact not_null
      · rintro ⟨-, not_null⟩
        refine ⟨fun i obj => (read i obj).trans ?_, marked, fun i lt absent => ⟨?_, ?_⟩⟩
        · constructor
          · rintro ⟨⟨-, -, below, -⟩, there⟩
            exact ⟨there, below⟩
          · rintro ⟨there, below⟩
            exact ⟨⟨obj, there, below, not_null i obj there below⟩, there⟩
        · exact others i fun mem => absent (mem.1.imp fun _ there => ⟨there, mem.2⟩)
        · refine objectid_free (written''.free i ?_ lt)
          rintro ⟨obj, there, below, -⟩
          exact absent ⟨obj, there, below⟩

/-! ### A database with a gap -/

/-- The encoding of a directory without properties: its id, no properties, its parent and its
children. -/
def encodeBare (obj : Object) : Bytes :=
  encodeLong obj.id.object ++ (encodeLong obj.id.inst ++ (encodeLong 0 ++ (encodeLong obj.parent ++
    (encodeLong obj.children.length ++ obj.children.flatMap encodeLong))))

def decodeLongs : ℕ → Bytes → Option (List ℕ)
  | 0, _ => some []
  | n + 1, bytes => do
    let (a, rest) ← decodeLong bytes
    let l ← decodeLongs n rest
    some (a :: l)

/-- The decoding of directories without properties. -/
def bareCodec : Codec Object where
  decode := fun bytes => do
    let (object, rest) ← decodeLong bytes
    let (inst, rest) ← decodeLong rest
    let (props, rest) ← decodeLong rest
    let (parent, rest) ← decodeLong rest
    let (count, rest) ← decodeLong rest
    let children ← decodeLongs count rest
    if props = 0 then some ⟨⟨object, inst⟩, parent, children, []⟩ else none
  objectId := fun obj => obj.id.object

/-- A directory without properties, with words where the file has words. -/
structure Bare (obj : Object) : Prop where
  props : obj.props = []
  object : obj.id.object < 2 ^ 32
  inst : obj.id.inst < 2 ^ 32
  parent : obj.parent < 2 ^ 32
  count : obj.children.length < 2 ^ 32
  children : ∀ c ∈ obj.children, c < 2 ^ 32

theorem decodeLongs_encode {l : List ℕ} (small : ∀ a ∈ l, a < 2 ^ 32) (more : Bytes) :
    decodeLongs l.length (l.flatMap encodeLong ++ more) = some l := by
  induction l with
  | nil => rfl
  | cons a l ih =>
    rw [length_cons, decodeLongs, flatMap_cons, append_assoc,
      decodeLong_encodeLong (small a mem_cons_self)]
    dsimp only [bind, Option.bind]
    rw [ih fun b mem => small b (mem_cons_of_mem _ mem)]

theorem decode_encodeBare (bare : Bare obj) (more : Bytes) :
    bareCodec.decode (encodeBare obj ++ more) = some obj := by
  obtain ⟨⟨object, inst⟩, parent, children, props⟩ := obj
  obtain ⟨no_props, object_small, inst_small, parent_small, count_small, children_small⟩ := bare
  subst no_props
  have zero : ∀ rest, decodeLong (encodeLong 0 ++ rest) = some (0, rest) := fun _ => rfl
  rw [bareCodec, encodeBare]
  simp only [append_assoc]
  rw [decodeLong_encodeLong object_small, bind_eq_bind, bind_some,
    decodeLong_encodeLong inst_small, bind_some, zero, bind_some,
    decodeLong_encodeLong parent_small, bind_some, decodeLong_encodeLong count_small,
    bind_some, decodeLongs_encode children_small, bind_eq_bind, bind_some,
    if_pos rfl]

theorem eq_of_decodeLong {bytes rest : Bytes} (decoded : decodeLong bytes = some (n, rest)) :
    bytes = encodeLong n ++ rest := by
  have front := encodeLong_of_decodeLong decoded
  match bytes, decoded with
  | a :: b :: c :: d :: tail, decoded =>
    obtain ⟨-, rfl⟩ := Prod.mk.inj (some.inj decoded)
    rw [← front]
    rfl

theorem lawful_bare (bare : ∀ i obj, s.dir i = some obj → Bare obj) :
    Lawful encodeBare bareCodec s := by
  constructor
  case objectId => exact fun _ => rfl
  case inverse => exact fun i obj more there => decode_encodeBare (bare i obj there) more
  case free =>
    intro inst more small
    have words : 0 < 2 ^ 32 ∧ dbFree < 2 ^ 32 := by decide
    have bare : Bare (freeObject inst) :=
      ⟨rfl, words.2, small, words.1, words.1, fun c mem => by cases mem⟩
    exact decode_encodeBare bare more
  case small =>
    intro inst
    have length : (encodeBare (freeObject inst)).length = 20 := rfl
    rw [length]
    decide
  case header =>
    intro bytes obj decoded
    simp only [bareCodec, bind_eq_bind, bind_eq_some_iff] at decoded
    obtain ⟨⟨object, rest⟩, first, ⟨inst, rest'⟩, second, ⟨props, _⟩, -, _, -, _, -, children, -,
      same⟩ := decoded
    split at same
    · cases same
      refine ⟨(decodeLong_lt first).1, rest', ?_⟩
      rw [append_assoc, ← eq_of_decodeLong second]
      exact eq_of_decodeLong first
    · cases same

/-- A root and a child, with a free id between them. -/
def gapDir (inst i : ℕ) : Object :=
  if i = 0 then ⟨⟨0, 2⟩, 0, [2], []⟩
  else if i = 1 then freeObject 0
  else ⟨⟨i, inst⟩, 0, [], []⟩

/-- The master with these directories. -/
def gap (inst : ℕ) : Store where
  blocksize := 512
  highestId := 3
  instances := fun _ => niUnchecked
  records := fun i => .decoded (gapDir inst i)
  cache := fun _ => none
  commits := fun _ => 0
  leaked := []

variable {inst : ℕ}

theorem dir_gap (there : (gap inst).dir i = some obj) :
    i = 0 ∧ obj = ⟨⟨0, 2⟩, 0, [2], []⟩ ∨ i = 2 ∧ obj = ⟨⟨2, inst⟩, 0, [], []⟩ := by
  obtain ⟨lt, record, own⟩ := dir_eq_some_iff.mp there
  obtain rfl : gapDir inst i = obj := Record.decoded.inj record
  have cases : i = 0 ∨ i = 1 ∨ i = 2 := by
    change i < 3 at lt
    omega
  rcases cases with rfl | rfl | rfl
  · exact .inl ⟨rfl, rfl⟩
  · cases own
  · exact .inr ⟨rfl, rfl⟩

theorem lists_gap : (gap inst).Lists i j ↔ i = 0 ∧ j = 2 := by
  constructor
  · rintro ⟨obj, there, mem⟩
    rcases dir_gap there with ⟨rfl, rfl⟩ | ⟨rfl, rfl⟩
    · exact ⟨rfl, mem_singleton.mp mem⟩
    · cases mem
  · rintro ⟨rfl, rfl⟩
    exact lists_of_eq_some (rfl : (gap inst).dir 0 = some (gapDir inst 0)) mem_cons_self

theorem sound_gap : Sound (gap inst) where
  sized := .inr rfl
  bounded := by
    change 3 * 512 ≤ 2 ^ 31
    decide
  own := by
    intro i lt
    have cases : i = 0 ∨ i = 1 ∨ i = 2 := by
      change i < 3 at lt
      omega
    rcases cases with rfl | rfl | rfl
    · exact .inl rfl
    · exact .inr ⟨freeObject 0, rfl, rfl⟩
    · exact .inl rfl
  coherent := fun i obj cached => by cases cached
  known := fun i obj there => .inr rfl

theorem tree_gap : (gap inst).Tree := by
  constructor
  case child =>
    intro i j listed
    obtain ⟨rfl, rfl⟩ := lists_gap.mp listed
    exact ⟨gapDir inst 2, rfl, rfl⟩
  case nodup =>
    intro i obj there
    rcases dir_gap there with ⟨-, rfl⟩ | ⟨-, rfl⟩
    · exact nodup_singleton 2
    · exact nodup_nil
  case acyclic =>
    intro i below
    obtain ⟨j, listed, rest⟩ := Relation.TransGen.head'_iff.mp below
    obtain ⟨rfl, rfl⟩ := lists_gap.mp listed
    rcases ReflTransGen.cases_tail rest with same | ⟨k, -, last⟩
    · cases same
    · cases (lists_gap.mp last).2
  case rooted =>
    intro j child there
    have top : ∀ k, ¬ (gap inst).Lists k 0 := fun k listed => by cases (lists_gap.mp listed).2
    refine ⟨0, .inl rfl, top, ?_⟩
    rcases dir_gap there with ⟨rfl, -⟩ | ⟨rfl, -⟩
    · exact .refl
    · exact .single (lists_gap.mpr ⟨rfl, rfl⟩)

theorem bare_gap (small : inst < 2 ^ 32) (there : (gap inst).dir i = some obj) : Bare obj := by
  have words : 0 < 2 ^ 32 ∧ 1 < 2 ^ 32 ∧ 2 < 2 ^ 32 := by decide
  rcases dir_gap there with ⟨-, rfl⟩ | ⟨-, rfl⟩
  · refine ⟨rfl, words.1, words.2.2, words.1, words.2.1, fun c mem => ?_⟩
    obtain rfl := mem_singleton.mp mem
    exact words.2.2
  · exact ⟨rfl, words.2.2, small, words.1, words.1, fun c mem => by cases mem⟩

/-- With ordinary instances the clone has the two directories, and the id between them is free. -/
theorem transfer_reproduces_gap : ∃ depth, ∀ n, depth ≤ n →
    ∃ f, transfer encodeBare bareCodec n Writes.all Writes.all (gap 7)
      ((gap 7).computeIt 2 0 0).1 = some f ∧ Reproduces (gap 7) bareCodec f := by
  have lawful : Lawful encodeBare bareCodec (gap 7) :=
    lawful_bare fun i obj there => bare_gap (by decide) there
  obtain ⟨depth, transferred⟩ := transfer_reproduces lawful sound_gap tree_gap rfl Writes.all
    Writes.all ((gap 7).computeIt 2 0 0).1
  refine ⟨depth, fun n deep => ?_⟩
  obtain ⟨f, made, reproduces⟩ := transferred n deep
  refine ⟨f, made, reproduces.mpr ⟨by decide, fun i obj there _ => ?_⟩⟩
  rcases dir_gap there with ⟨-, rfl⟩ | ⟨-, rfl⟩
  · decide
  · decide

/-- With other instances it is not so.  The first database has the checksum zero, and nothing is
transferred.  In the second the child has the instance of a free id, and the clone removes it. -/
theorem transfer_loses :
    ((gap 2863311530).computeIt 2 0 0).1 = 0 ∧
      (transfer encodeBare bareCodec 3 Writes.all Writes.all (gap 2863311530) 0).map (fun f =>
        (f.highestId, fileRead bareCodec dflBlocksize f.highestId f.disk 0)) = some (0, none) ∧
      ((gap niIndexNull).computeIt 2 0 0).1 ≠ 0 ∧
      (transfer encodeBare bareCodec 3 Writes.all Writes.all (gap niIndexNull)
        ((gap niIndexNull).computeIt 2 0 0).1).map (fun f =>
          (f.highestId, fileRead bareCodec dflBlocksize f.highestId f.disk 0,
            fileRead bareCodec dflBlocksize f.highestId f.disk 2)) =
        some (1, some (gapDir niIndexNull 0), none) ∧
      (gap niIndexNull).dir 2 = some (gapDir niIndexNull 2) ∧ Below (gap niIndexNull) 0 2 := by
  refine ⟨by decide +kernel, by decide +kernel, by decide +kernel, by decide +kernel, rfl, ?_⟩
  exact .single (lists_gap.mpr ⟨rfl, rfl⟩)

end Transfer

end Darwin.Netinfo.Transfer
