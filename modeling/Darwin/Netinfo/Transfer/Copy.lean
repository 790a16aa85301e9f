import Darwin.Netinfo.File.Atomic
import Darwin.Netinfo.Index.Change
import Darwin.Netinfo.Transfer.Basic

/-!
# What a transfer writes

The master sends every directory below the root.  The clone writes each into its record; the records
between are free.

## Main definitions

* `Lawful` - what the XDR routines do with the directories of a database
* `Begins` - what a record of the files begins with
* `Written` - the files hold some of the directories, and nothing else

## Main results

* `readall_spec`, `writeall_spec` - the two halves of the transfer
-/

namespace Darwin.Netinfo.Transfer

open List Darwin.Lib Relation Index

variable {s s' : Store} {encode : Object → Bytes} {codec : Codec Object} {f : Files} {d : Disk}
  {i j n : ℕ} {obj : Object} {mem : Bytes} {w again : Writes}

/-- The directory is below another, or that one. -/
abbrev Below (s : Store) (i j : ℕ) : Prop := ReflTransGen s.Lists i j

/-! ## The master -/

section Master

/-- The directories below one of several. -/
structure Sent (s : Store) (tops : List ℕ) (objects : List Object) : Prop where
  mem_iff : ∀ obj, obj ∈ objects ↔
    s.dir obj.id.object = some obj ∧ ∃ i ∈ tops, Below s i obj.id.object

/-- A function that sends the directories below one, from any store with the same directories. -/
def Sends (s : Store) (read : Store → Option (List Object) × Store) (objects : List Object) :
    Prop :=
  ∀ s', Sound s' → s'.dir = s.dir → (read s').1 = some objects ∧ Reads s' (read s').2

theorem doitAll_spec {children : List ℕ}
    (each : ∀ c ∈ children, ∃ depth objects, Sent s [c] objects ∧
      ∀ n, depth ≤ n → Sends s (doit n c) objects) :
    ∃ depth objects, Sent s children objects ∧
      ∀ n, depth ≤ n → Sends s (doitAll (doit n) children) objects := by
  induction children with
  | nil =>
    refine ⟨0, [], ⟨fun obj => ?_⟩, fun n _ s' sound _ => ⟨rfl, .refl sound⟩⟩
    refine iff_of_false not_mem_nil ?_
    rintro ⟨-, i, mem, -⟩
    cases mem
  | cons c children ih =>
    obtain ⟨depth₁, objects₁, sent₁, sends₁⟩ := each c mem_cons_self
    obtain ⟨depth₂, objects₂, sent₂, sends₂⟩ :=
      ih fun c mem => each c (mem_cons_of_mem _ mem)
    refine ⟨max depth₁ depth₂, objects₁ ++ objects₂, ⟨fun obj => ?_⟩, fun n deep s' sound dir => ?_⟩
    · rw [mem_append, sent₁.mem_iff, sent₂.mem_iff]
      constructor
      · rintro (⟨there, i, mem, below⟩ | ⟨there, i, mem, below⟩)
        · exact ⟨there, i, mem_cons.mpr (.inl (mem_singleton.mp mem)), below⟩
        · exact ⟨there, i, mem_cons_of_mem _ mem, below⟩
      rintro ⟨there, i, mem, below⟩
      rcases mem_cons.mp mem with rfl | mem
      · exact .inl ⟨there, i, mem_singleton_self _, below⟩
      · exact .inr ⟨there, i, mem, below⟩
    · obtain ⟨first, reads₁⟩ := sends₁ n (le_trans (le_max_left _ _) deep) s' sound dir
      rw [doitAll]
      generalize doit n c s' = result₁ at *
      obtain ⟨r₁, s₁⟩ := result₁
      subst first
      obtain ⟨second, reads₂⟩ := sends₂ n (le_trans (le_max_right _ _) deep) s₁
        reads₁.sound (reads₁.dir.trans dir)
      dsimp only
      generalize doitAll (doit n) children s₁ = result₂ at *
      obtain ⟨r₂, s₂⟩ := result₂
      subst second
      exact ⟨rfl, reads₂.after reads₁⟩

/-- `doit` sends the directories below one, each once it has been read. -/
theorem doit_spec (tree : s.Tree) (i : ℕ) : (∃ obj, s.dir i = some obj) →
    ∃ depth objects, Sent s [i] objects ∧ ∀ n, depth ≤ n → Sends s (doit n i) objects := by
  have finite : ∀ i b, s.dir i = some b → i ∈ Finset.range s.highestId := fun i b there =>
    Finset.mem_range.mpr (dir_eq_some_iff.mp there).1
  refine tree.induction (P := fun i => (∃ obj, s.dir i = some obj) →
    ∃ depth objects, Sent s [i] objects ∧ ∀ n, depth ≤ n → Sends s (doit n i) objects)
    finite ?_ i
  rintro i ih ⟨obj, there⟩
  obtain ⟨depth, objects, sent, sends⟩ := @doitAll_spec s obj.children fun c mem => by
    have listed : s.Lists i c := lists_of_eq_some there mem
    obtain ⟨child, child_there, -⟩ := tree.child i c listed
    exact ih c listed ⟨child, child_there⟩
  have own := id_of_dir there
  refine ⟨depth + 1, obj :: objects, ⟨fun obj' => ?_⟩, fun n deep s' sound dir => ?_⟩
  · rw [mem_cons, sent.mem_iff]
    constructor
    · rintro (rfl | ⟨there', c, mem, below⟩)
      · rw [own]
        exact ⟨there, i, mem_singleton_self _, .refl⟩
      · exact ⟨there', i, mem_singleton_self _, .head (lists_of_eq_some there mem) below⟩
    · rintro ⟨there', i', mem, below⟩
      obtain rfl := mem_singleton.mp mem
      rcases below.cases_head with same | ⟨c, listed, below⟩
      · rw [← same] at there'
        exact .inl (Option.some.inj (there'.symm.trans there))
      · exact .inr ⟨there', c, (lists_iff.mp listed) |> (childrenOf_eq there ▸ ·), below⟩
  · obtain ⟨n, rfl⟩ := Nat.exists_eq_add_of_le' (le_trans (Nat.le_add_left 1 depth) deep)
    have reads := @objLookupRead_reads s' i sound
    have read := objLookupRead_of_dir sound (dir ▸ there)
    rw [doit]
    generalize s'.objLookupRead i = looked at *
    obtain ⟨r, s₁⟩ := looked
    subst read
    obtain ⟨all, reads'⟩ := sends n (Nat.le_of_succ_le_succ deep) s₁ reads.sound
      (reads.dir.trans dir)
    dsimp only
    generalize doitAll (doit n) obj.children s₁ = result at *
    obtain ⟨r, s₂⟩ := result
    subst all
    exact ⟨rfl, reads'.after reads⟩

/-- `ni_root` of a database with a root. -/
theorem root_there (sound : Sound s) (there : s.dir 0 = some obj) :
    (s.root w again).1 = .ok obj.id ∧ Reads s (s.root w again).2 := by
  obtain ⟨quiet, rooted, no_root⟩ := @fileRootid_spec s w sound
  have sound₁ := quiet.sound sound
  unfold Store.root Store.objLookupRoot
  generalize s.fileRootid w = rootid at *
  obtain ⟨r, s₁⟩ := rootid
  cases r with
  | error status => cases there.symm.trans (no_root status rfl)
  | ok id =>
    obtain ⟨isRoot, -⟩ := rooted id rfl
    have reads := @objLookupRead_reads s₁ id.object sound₁
    have there₁ : s₁.dir id.object = some obj := by rw [isRoot, quiet.dir]; exact there
    have read := objLookupRead_of_dir sound₁ there₁
    dsimp only
    generalize s₁.objLookupRead id.object = looked at *
    obtain ⟨r, s₂⟩ := looked
    subst read
    exact ⟨rfl, reads.sound, reads.dir.trans quiet.dir, fun _ old => reads.leaked (quiet.leaked old)⟩

/-- The master sends every directory below the root. -/
theorem readall_spec (sound : Sound s) (tree : s.Tree) (there : s.dir 0 = some obj)
    (checksum : ℕ) : ∃ depth objects highest, Sent s [0] objects ∧
      (∀ obj ∈ objects, obj.id.object < highest) ∧
      ∀ n, depth ≤ n → readall n w again s checksum = some ⟨checksum, highest, objects⟩ := by
  obtain ⟨rooted, reads⟩ := @root_there s obj w again sound there
  obtain ⟨depth, objects, sent, sends⟩ := doit_spec tree 0 ⟨obj, there⟩
  have own := id_of_dir there
  unfold readall
  generalize s.root w again = answer at *
  obtain ⟨r, s₁⟩ := answer
  subst rooted
  refine ⟨depth, objects, s₁.highestId, sent, fun obj' mem => ?_, fun n deep => ?_⟩
  · have there' := ((sent.mem_iff obj').mp mem).1
    rw [← reads.dir] at there'
    exact (dir_eq_some_iff.mp there').1
  obtain ⟨all, -⟩ := sends n deep s₁ reads.sound reads.dir
  dsimp only
  rw [own, all]
  rfl

end Master

/-! ## Records -/

section Records

/-- A record begins with these bytes, in the block of its directory if it has no extension file. -/
structure Begins (f : Files) (i : ℕ) (mem : Bytes) : Prop where
  isPrefix : mem <+: f.record i
  block : f.disk.extension i = none → mem.length ≤ dflBlocksize

theorem begins_iff : Begins f i mem ↔
    (f.disk.extension i = none ∧ mem.length ≤ dflBlocksize ∧
      mem <+: f.disk.collection.drop (i * dflBlocksize)) ∨
    ∃ bytes, f.disk.extension i = some bytes ∧ mem <+: bytes := by
  constructor
  · rintro ⟨begins, block⟩
    rw [Files.record] at begins
    cases extension : f.disk.extension i with
    | none =>
      rw [extension] at begins
      exact .inl ⟨rfl, block extension, begins⟩
    | some bytes =>
      rw [extension] at begins
      exact .inr ⟨bytes, rfl, begins⟩
  · rintro (⟨extension, block, begins⟩ | ⟨bytes, extension, begins⟩)
    · refine ⟨?_, fun _ => block⟩
      rw [Files.record, extension]
      exact begins
    · refine ⟨?_, fun none => by cases extension.symm.trans none⟩
      rw [Files.record, extension]
      exact begins

variable (begins : Begins f i mem)

include begins

/-- A record keeps what it begins with if its block and its extension file do. -/
theorem Begins.of_block {f' : Files} (extension : f'.disk.extension i = f.disk.extension i)
    (block : (f.disk.collection.drop (i * dflBlocksize)).take dflBlocksize <+: f'.disk.collection.drop (i * dflBlocksize)) :
    Begins f' i mem := by
  rcases begins_iff.mp begins with ⟨none, short, begins⟩ | ⟨bytes, some, begins⟩
  · refine begins_iff.mpr (.inl ⟨extension.trans none, short, ?_⟩)
    exact (prefix_take_iff.mpr ⟨begins, short⟩).trans block
  · exact begins_iff.mpr (.inr ⟨bytes, extension.trans some, begins⟩)

/-- A write into another block. -/
theorem Begins.of_write {f' : Files} {data : Bytes} (other : i ≠ j)
    (extension : f'.disk.extension i = f.disk.extension i) (short : data.length ≤ dflBlocksize)
    (collection : f'.disk.collection = writeAt 0 f.disk.collection (j * dflBlocksize) data) :
    Begins f' i mem := by
  refine begins.of_block extension ?_
  rw [collection]
  rcases lt_or_gt_of_ne other with before | after
  · refine isPrefix_drop_writeAt ?_
    rw [← Nat.succ_mul]
    exact Nat.mul_le_mul_right _ before
  rw [drop_writeAt_after]
  · exact take_prefix _ _
  · calc j * dflBlocksize + data.length ≤ j * dflBlocksize + dflBlocksize := by omega
      _ = (j + 1) * dflBlocksize := (Nat.succ_mul _ _).symm
      _ ≤ i * dflBlocksize := Nat.mul_le_mul_right _ after

/-- Only the disk matters. -/
theorem Begins.of_disk {f' : Files} (disk : f'.disk = f.disk) : Begins f' i mem := by
  refine ⟨?_, ?_⟩
  · rw [Files.record, disk]
    exact begins.isPrefix
  · rw [disk]
    exact begins.block

end Records

/-! ## The clone -/

section Clone

/-- What the XDR routines do with the directories of a database: decoding is the inverse of
encoding, also of a free object, and an encoded object starts with its id. -/
structure Lawful (encode : Object → Bytes) (codec : Codec Object) (s : Store) : Prop where
  objectId : ∀ obj, codec.objectId obj = obj.id.object
  inverse : ∀ i obj more, s.dir i = some obj → codec.decode (encode obj ++ more) = some obj
  free : ∀ inst more, inst < 2 ^ 32 →
    codec.decode (encode (freeObject inst) ++ more) = some (freeObject inst)
  small : ∀ inst, (encode (freeObject inst)).length ≤ dflBlocksize
  header : ∀ bytes obj, codec.decode bytes = some obj → obj.id.object < 2 ^ 32 ∧
    ∃ rest, bytes = encodeLong obj.id.object ++ encodeLong obj.id.inst ++ rest

/-- The files hold these directories; the other records are free. -/
structure Written (s : Store) (encode : Object → Bytes) (present : Set ℕ) (f : Files) : Prop where
  length : f.disk.collection.length = f.highestId * dflBlocksize
  inside : ∀ i ∈ present, i < f.highestId
  held : ∀ i ∈ present, ∀ obj, s.dir i = some obj → Begins f i (encode obj)
  free : ∀ i ∉ present, i < f.highestId → Begins f i (encodeLong dbFree)
  large : ∀ i bytes, f.disk.extension i = some bytes →
    i ∈ present ∧ ∀ obj, s.dir i = some obj → dflBlocksize < (encode obj).length

theorem written_new (s : Store) (encode : Object → Bytes) : Written s encode ∅ Files.new where
  length := rfl
  inside := fun i mem => mem.elim
  held := fun i mem => mem.elim
  free := fun i _ lt => (Nat.not_lt_zero i lt).elim
  large := fun i bytes extension => by cases extension

variable {present : Set ℕ}

theorem length_freeBlock : freeBlock.length = dflBlocksize := by
  rw [freeBlock, length_append, length_replicate, length_encodeLong]
  rfl

variable (written : Written s encode present f)

include written

/-- The next block of the collection is one of a free record. -/
theorem Written.growOne : Written s encode present (growOne f) := by
  have collection : (Transfer.growOne f).disk.collection = f.disk.collection ++ freeBlock := by
    have appended := @writeAt_append _ (0 : UInt8) freeBlock f.disk.collection []
    rw [append_nil, drop_nil, append_nil, written.length] at appended
    exact appended
  have older : ∀ {i mem}, i < f.highestId → Begins f i mem → Begins (Transfer.growOne f) i mem := by
    intro i mem lt begins
    refine begins.of_block rfl ?_
    rw [collection, drop_append_of_le_length]
    · exact ( take_prefix _ _).trans (prefix_append _ _)
    · rw [written.length]
      exact Nat.mul_le_mul_right _ lt.le
  refine ⟨?_, fun i mem => Nat.lt_succ_of_lt (written.inside i mem), fun i mem obj there =>
    older (written.inside i mem) (written.held i mem obj there), fun i absent lt => ?_,
    written.large⟩
  · rw [collection, length_append, length_freeBlock, written.length]
    exact (Nat.succ_mul _ _).symm
  rcases Nat.lt_succ_iff_lt_or_eq.mp lt with lt | rfl
  · exact older lt (written.free i absent lt)
  refine begins_iff.mpr (.inl ⟨?_, by decide, ?_⟩)
  · cases extension : f.disk.extension f.highestId with
    | none => exact extension
    | some bytes => exact absurd (written.large _ bytes extension).1 absent
  · rw [collection, drop_left' written.length]
    exact prefix_append _ _

theorem Written.fileGrow (i : ℕ) :
    Written s encode present (fileGrow f i) ∧ i < (fileGrow f i).highestId := by
  have rounds : ∀ n, Written s encode present (Transfer.growOne^[n] f) ∧
      (Transfer.growOne^[n] f).highestId = f.highestId + n := by
    intro n
    induction n with
    | zero => exact ⟨written, rfl⟩
    | succ n ih =>
      rw [Function.iterate_succ_apply']
      exact ⟨ih.1.growOne, congrArg (· + 1) ih.2⟩
  obtain ⟨grown, highest⟩ := rounds (i + 1 - f.highestId)
  refine ⟨grown, ?_⟩
  rw [Transfer.fileGrow, highest]
  omega

/-- Writing a directory into its record. -/
theorem Written.fastencode (there : s.dir i = some obj) (lt : i < f.highestId) :
    Written s encode (insert i present) (fastencode encode f obj) := by
  have own := id_of_dir there
  by_cases short : (encode obj).length ≤ dflBlocksize
  · have unextended : f.disk.extension i = none := by
      cases extension : f.disk.extension i with
      | none => rfl
      | some bytes =>
        exact absurd ((written.large i bytes extension).2 obj there) (not_lt.mpr short)
    obtain ⟨f', made, collection, extension, highest⟩ :
        ∃ f', f' = Transfer.fastencode encode f obj ∧
          f'.disk.collection = writeAt 0 f.disk.collection (i * dflBlocksize) (encode obj) ∧
          f'.disk.extension = f.disk.extension ∧ f'.highestId = f.highestId := by
      refine ⟨_, rfl, ?_, ?_, rfl⟩
      · rw [Transfer.fastencode, if_pos short, own]
      · rw [Transfer.fastencode, if_pos short]
    rw [← made]
    have other : ∀ {j mem}, j ≠ i → Begins f j mem → Begins f' j mem := fun ne begins =>
      begins.of_write ne (congrFun extension _) short collection
    refine ⟨?_, fun j mem => ?_, fun j mem obj' there' => ?_, fun j absent lt' => ?_,
      fun j bytes is_extension => ?_⟩
    · have inside : i * dflBlocksize + (encode obj).length ≤ f.highestId * dflBlocksize := by
        calc i * dflBlocksize + (encode obj).length ≤ i * dflBlocksize + dflBlocksize := by omega
          _ = (i + 1) * dflBlocksize := (Nat.succ_mul _ _).symm
          _ ≤ f.highestId * dflBlocksize := Nat.mul_le_mul_right _ lt
      rw [collection, length_writeAt, written.length, highest, Nat.max_eq_left inside]
    · rw [highest]
      rcases mem with rfl | mem
      · exact lt
      · exact written.inside j mem
    · rcases eq_or_ne j i with rfl | ne
      · cases there.symm.trans there'
        refine begins_iff.mpr (.inl ⟨(congrFun extension _).trans unextended, short, ?_⟩)
        rw [collection, drop_writeAt_self]
        exact prefix_append _ _
      · exact other ne (written.held j (mem.resolve_left ne) obj' there')
    · rw [highest] at lt'
      exact other (fun same => absent (.inl same)) (written.free j (fun mem => absent (.inr mem)) lt')
    · rw [extension] at is_extension
      exact (written.large j bytes is_extension).imp_left .inr
  · obtain ⟨f', made, collection, extension, highest⟩ :
        ∃ f', f' = Transfer.fastencode encode f obj ∧ f'.disk.collection = f.disk.collection ∧
          f'.disk.extension = Function.update f.disk.extension i (some (encode obj)) ∧
          f'.highestId = f.highestId := by
      refine ⟨_, rfl, ?_, ?_, rfl⟩
      · rw [Transfer.fastencode, if_neg short]
      · rw [Transfer.fastencode, if_neg short, own]
    rw [← made]
    have other : ∀ {j mem}, j ≠ i → Begins f j mem → Begins f' j mem := fun ne begins => by
      refine begins.of_block ?_ ?_
      · rw [extension, Function.update_of_ne ne]
      · rw [collection]
        exact take_prefix _ _
    refine ⟨?_, fun j mem => ?_, fun j mem obj' there' => ?_, fun j absent lt' => ?_,
      fun j bytes is_extension => ?_⟩
    · rw [collection, highest, written.length]
    · rw [highest]
      rcases mem with rfl | mem
      · exact lt
      · exact written.inside j mem
    · rcases eq_or_ne j i with rfl | ne
      · cases there.symm.trans there'
        refine begins_iff.mpr (.inr ⟨encode obj, ?_, prefix_refl _⟩)
        rw [extension, Function.update_self]
      · exact other ne (written.held j (mem.resolve_left ne) obj' there')
    · rw [highest] at lt'
      exact other (fun same => absent (.inl same)) (written.free j (fun mem => absent (.inr mem)) lt')
    rcases eq_or_ne j i with rfl | ne
    · refine ⟨.inl rfl, fun obj' there' => ?_⟩
      cases there.symm.trans there'
      exact Nat.lt_of_not_le short
    · rw [extension, Function.update_of_ne ne] at is_extension
      exact (written.large j bytes is_extension).imp_left .inr

/-- `file_forcewrite` of a directory within the bound. -/
theorem Written.fileForcewrite {maxid : ℕ} (there : s.dir i = some obj) (bound : i ≤ maxid) :
    ∃ f', fileForcewrite encode maxid f obj = some f' ∧
      Written s encode (insert i present) f' := by
  have own := id_of_dir there
  unfold Transfer.fileForcewrite
  rw [own]
  split
  · rw [if_neg (not_lt.mpr bound)]
    obtain ⟨grown, lt⟩ := written.fileGrow i
    exact ⟨_, rfl, grown.fastencode there lt⟩
  · next lt => exact ⟨_, rfl, written.fastencode there (Nat.lt_of_not_le lt)⟩

/-- The clone writes every directory it is sent. -/
theorem Written.forcewriteAll {maxid : ℕ} {objects : List Object}
    (there : ∀ obj ∈ objects, s.dir obj.id.object = some obj)
    (bound : ∀ obj ∈ objects, obj.id.object ≤ maxid) :
    Written s encode (present ∪ {i | ∃ obj ∈ objects, obj.id.object = i})
      (forcewriteAll encode maxid objects f).2 := by
  induction objects generalizing f present with
  | nil =>
    have none : {i | ∃ obj ∈ ([] : List Object), obj.id.object = i} = ∅ := by
      ext i
      simp
    rw [none, Set.union_empty]
    exact written
  | cons obj objects ih =>
    obtain ⟨f', wrote, written'⟩ := written.fileForcewrite (there obj mem_cons_self)
      (bound obj mem_cons_self)
    have rest := ih written' (fun obj mem => there obj (mem_cons_of_mem _ mem))
      (fun obj mem => bound obj (mem_cons_of_mem _ mem))
    have more : present ∪ {i | ∃ obj' ∈ obj :: objects, obj'.id.object = i} =
        insert obj.id.object present ∪ {i | ∃ obj' ∈ objects, obj'.id.object = i} := by
      ext i
      simp only [mem_cons, Set.mem_union, Set.mem_insert_iff, Set.mem_ofPred_eq, exists_eq_or_imp]
      tauto
    rw [Transfer.forcewriteAll, wrote, more]
    exact rest

omit written

/-- What the clone has on its disk before it opens it. -/
theorem writeall_spec {stream : Stream} (sent : Sent s [0] stream.objects)
    (bound : ∀ obj ∈ stream.objects, obj.id.object < stream.highestId)
    (nonzero : stream.checksum ≠ 0) :
    Written s encode {i | (∃ obj, s.dir i = some obj) ∧ Below s 0 i} (writeall encode stream).2 := by
  have all := (written_new s encode).forcewriteAll
    (fun obj mem => ((sent.mem_iff obj).mp mem).1) (fun obj mem => (bound obj mem).le)
  have same : ∅ ∪ {i | ∃ obj ∈ stream.objects, obj.id.object = i} =
      {i | (∃ obj, s.dir i = some obj) ∧ Below s 0 i} := by
    ext i
    rw [Set.empty_union]
    constructor
    · rintro ⟨obj, mem, rfl⟩
      obtain ⟨there, top, top_mem, below⟩ := (sent.mem_iff obj).mp mem
      obtain rfl := mem_singleton.mp top_mem
      exact ⟨⟨obj, there⟩, below⟩
    · rintro ⟨⟨obj, there⟩, below⟩
      have own := id_of_dir there
      refine ⟨obj, (sent.mem_iff obj).mpr ⟨own ▸ there, 0, mem_singleton_self 0, ?_⟩, own⟩
      rw [own]
      exact below
  rw [writeall, if_neg nonzero, ← same]
  exact all

end Clone

end Darwin.Netinfo.Transfer
