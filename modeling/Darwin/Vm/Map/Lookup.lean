import Darwin.Vm.Map.Entries

/-!
# Lookup of an address

`vm_map_lookup_entry` answers the same question whatever the hint: whether the address is mapped,
and which entry contains or precedes it.  The operations on a range start from its answer: the list
is cut at the start of the range, with an entry clipped there if necessary.

## Main results

* `VmMap.Inv.lookup` - the lookup is correct for every address and every hint
* `VmMap.Inv.clipStart` - the list cut in front of a range stands for the same addresses
-/

namespace Darwin.Vm.Map

open List Darwin.Lib Option

variable {O : Type*} {lo hi start a : ℕ} {l l₁ l₂ : List (Entry O)} {e : Entry O} {map : VmMap O}

/-- The invariant of a map. -/
structure VmMap.Inv (map : VmMap O) : Prop where
  list : ListInv map.minOffset map.maxOffset map.counts map.entries
  hint : Denotes map.entries map.hint
  firstFree : Denotes map.entries map.firstFree
  main : map.isMainMap = true

/-! ## Pointers -/

@[simp]
theorem lastId_concat (l : List (Entry O)) (e : Entry O) : lastId (l ++ [e]) = some e.id := by
  rw [lastId, List.getLast?_concat]
  rfl

theorem denotes_none (l : List (Entry O)) : Denotes l none := fun _ same => nomatch same

theorem Denotes.mono {p : Option ℕ} (denotes : Denotes l p)
    (subset : l.map Entry.id ⊆ l₁.map Entry.id) : Denotes l₁ p :=
  fun id same => subset (denotes id same)

theorem denotes_lastId (l₁ l₂ : List (Entry O)) : Denotes (l₁ ++ l₂) (lastId l₁) := by
  intro id same
  rcases eq_nil_or_concat' l₁ with rfl | ⟨l, e, rfl⟩
  · cases same
  · rw [lastId_concat] at same
    cases same
    simp

/-- A pointer that denotes an entry, and the list around it. -/
theorem Denotes.split {id : ℕ} (denotes : Denotes l (some id)) :
    ∃ l₁ e l₂, l = l₁ ++ e :: l₂ ∧ e.id = id := by
  obtain ⟨e, mem, same⟩ := mem_map.mp (denotes id rfl)
  obtain ⟨l₁, l₂, eq⟩ := append_of_mem mem
  exact ⟨l₁, e, l₂, eq, same⟩

theorem notMem_of_nodup (distinct : ((l₁ ++ e :: l₂).map Entry.id).Nodup) :
    ∀ d ∈ l₁, d.id ≠ e.id := by
  intro d mem same
  rw [map_append, map_cons, nodup_middle, nodup_cons] at distinct
  refine distinct.1 (mem_append_left _ ?_)
  rw [← same]
  exact mem_map_of_mem mem

theorem cutAt_append (distinct : ((l₁ ++ e :: l₂).map Entry.id).Nodup) :
    cutAt (l₁ ++ e :: l₂) e.id = (l₁, e :: l₂) := by
  have other : ∀ d ∈ l₁, (d.id != e.id) = true := fun d mem => by
    simpa using notMem_of_nodup distinct d mem
  rw [cutAt, takeWhile_append_of_pos other, dropWhile_append_of_pos other]
  simp

theorem cutAfter_append (distinct : ((l₁ ++ l₂).map Entry.id).Nodup) :
    cutAfter (l₁ ++ l₂) (lastId l₁) = (l₁, l₂) := by
  rcases eq_nil_or_concat' l₁ with rfl | ⟨l, e, rfl⟩
  · rfl
  · rw [← append_cons] at distinct ⊢
    rw [lastId_concat, cutAfter, cutAt_append distinct]

theorem find?_id (distinct : (l.map Entry.id).Nodup) (mem : e ∈ l) :
    (l.find? fun d => d.id == e.id) = some e := by
  obtain ⟨l₁, l₂, rfl⟩ := append_of_mem mem
  rw [List.find?_append, List.find?_eq_none.mpr, none_or]
  · simp
  · intro d mem
    simpa using notMem_of_nodup distinct d mem

theorem startOf_eq (map : VmMap O) (distinct : (map.entries.map Entry.id).Nodup)
    (mem : e ∈ map.entries) :
    map.startOf (some e.id) = e.start := by
  rw [VmMap.startOf, find?_id distinct mem]
  rfl

theorem stopOf_eq (map : VmMap O) (distinct : (map.entries.map Entry.id).Nodup)
    (mem : e ∈ map.entries) :
    map.stopOf (some e.id) = e.stop := by
  rw [VmMap.stopOf, find?_id distinct mem]
  rfl

/-! ## The answer of a lookup -/

/-- The right answer of a lookup: the entries of `before` lie before the address; the next entry
contains it, or lies after it. -/
def Answers (l : List (Entry O)) (address : ℕ) (found : Bool) (entry : Option ℕ) : Prop :=
  ∃ before rest, l = before ++ rest ∧ (∀ e ∈ before, e.stop ≤ address) ∧
    ((found = false ∧ entry = lastId before ∧ ∀ e ∈ rest, address < e.start) ∨
      (found = true ∧ ∃ e rest', rest = e :: rest' ∧ e.start ≤ address ∧ address < e.stop ∧
        entry = some e.id))

theorem searchEntries_answers (pre seg tail : List (Entry O))
    (segments : Segments Entry.start Entry.stop lo (pre ++ (seg ++ tail)) hi)
    (earlier : ∀ e ∈ pre, e.stop ≤ a) (later : ∀ e ∈ tail, a < e.start) :
    Answers (pre ++ (seg ++ tail)) a (searchEntries a (lastId pre) seg).1
      (searchEntries a (lastId pre) seg).2 := by
  induction seg generalizing pre with
  | nil => exact ⟨pre, tail, rfl, earlier, .inl ⟨rfl, rfl, later⟩⟩
  | cons cur rest ih =>
    have after := (segments_append.mp segments).2
    rw [searchEntries]
    split_ifs with below contains
    · exact ⟨pre, cur :: rest ++ tail, rfl, earlier,
        .inr ⟨rfl, cur, rest ++ tail, rfl, contains, below, rfl⟩⟩
    · refine ⟨pre, cur :: rest ++ tail, rfl, earlier, .inl ⟨rfl, rfl, fun e mem => ?_⟩⟩
      rcases mem_cons.mp mem with rfl | mem
      · exact Nat.lt_of_not_le contains
      · have := (after.2.2.2.bounds mem).1
        omega
    · rw [cons_append, append_cons] at segments ⊢
      have earlier' : ∀ e ∈ pre ++ [cur], e.stop ≤ a := by
        intro e mem
        rcases mem_append.mp mem with mem | last
        · exact earlier e mem
        · obtain rfl := mem_singleton.mp last
          exact Nat.le_of_not_lt below
      have answers := ih (pre ++ [cur]) segments earlier'
      rw [lastId_concat] at answers
      exact answers

/-- The hint, or the first entry: where a lookup starts. -/
theorem Denotes.cut (distinct : (l.map Entry.id).Nodup) {hint : Option ℕ}
    (denotes : Denotes l hint) :
    ∃ l₁ l₂, l = l₁ ++ l₂ ∧ (l₂ = [] → l₁ = []) ∧ cutHint l hint = (l₁, l₂) := by
  cases hint with
  | none => exact ⟨[], l, rfl, fun _ => rfl, rfl⟩
  | some id =>
    obtain ⟨l₁, e, l₂, rfl, rfl⟩ := denotes.split
    exact ⟨l₁, e :: l₂, rfl, fun empty => (nomatch empty), cutAt_append distinct⟩

/-- An answer denotes an entry. -/
theorem Answers.denotes {found : Bool} {entry : Option ℕ} (answers : Answers l a found entry) :
    Denotes l entry := by
  obtain ⟨before, rest, rfl, -, ⟨-, rfl, -⟩ | ⟨-, e, rest', rfl, -, -, rfl⟩⟩ := answers
  · exact denotes_lastId before rest
  · intro id same
    cases same
    simp

/-- The lookup is right for every address, whatever the hint; it changes only the hint, and after a
lookup that finds nothing the hint is the entry returned. -/
theorem VmMap.Inv.lookup (inv : map.Inv) (a : ℕ) :
    Answers map.entries a (map.vmMapLookupEntry a).1 (map.vmMapLookupEntry a).2.1 ∧
      ∃ hint, (map.vmMapLookupEntry a).2.2 = { map with hint := hint } ∧ Denotes map.entries hint ∧
        ((map.vmMapLookupEntry a).1 = false → hint = (map.vmMapLookupEntry a).2.1) := by
  obtain ⟨l₁, l₂, eq, empty, cut⟩ := inv.hint.cut inv.list.distinct
  have segments := inv.list.segments
  rw [eq] at segments
  have saved : ∀ {found : Bool} {entry : Option ℕ}, Answers map.entries a found entry →
      Answers map.entries a found entry ∧ ∃ hint, { map with hint := entry } =
        { map with hint := hint } ∧ Denotes map.entries hint ∧ (found = false → hint = entry) :=
    fun answers => ⟨answers, _, rfl, answers.denotes, fun _ => rfl⟩
  rw [VmMap.vmMapLookupEntry, cut]
  cases l₂ with
  | nil =>
    refine saved ⟨[], [], ?_, fun e mem => (nomatch mem),
      .inl ⟨rfl, ?_, fun e mem => nomatch mem⟩⟩
    · rw [eq, empty rfl]
    · rw [empty rfl]
  | cons cur rest =>
    obtain ⟨first, low, order, high, after⟩ := segments_append.mp segments
    have earlier : cur.start ≤ a → ∀ e ∈ l₁, e.stop ≤ a := by
      intro reached e mem
      have := first.stop_le_lastStop mem
      omega
    dsimp only
    split_ifs with reached contains
    · -- the hint contains the address
      exact ⟨⟨l₁, cur :: rest, eq, earlier reached, .inr ⟨rfl, cur, rest, rfl, reached, contains,
        rfl⟩⟩, map.hint, rfl, inv.hint, fun missing => nomatch missing⟩
    · -- from the hint to the end of the list
      refine saved ?_
      rw [eq]
      have answers := searchEntries_answers l₁ (cur :: rest) []
        (by rw [append_nil]; exact segments) (earlier reached) (fun e mem => nomatch mem)
      rw [append_nil] at answers
      exact answers
    · -- from the start of the list to the hint
      refine saved ?_
      rw [eq, append_cons]
      exact searchEntries_answers [] (l₁ ++ [cur]) rest
        (by rw [nil_append, ← append_cons]; exact segments)
        (fun e mem => nomatch mem) (fun e mem => by
          have := (after.bounds mem).1
          omega)

/-! ## The list cut in front of a range -/

/-- An entry without the part that lies before the range. -/
def Entry.clipFront (start : ℕ) (e : Entry O) : Entry O :=
  if e.start < start then e.back start else e

/-- What an operation knows of the list that it has cut at `start`. -/
structure CutAt (map : VmMap O) (start : ℕ) (cut : Cut O) : Prop where
  inv : ListInv map.minOffset map.maxOffset cut.counts (cut.before ++ cut.rest)
  ids : map.entries.map Entry.id ⊆ (cut.before ++ cut.rest).map Entry.id
  hint : Denotes (cut.before ++ cut.rest) cut.hint
  /-- if nothing is mapped at `start`, the hint is in front of the range -/
  missing : cut.found = false → cut.hint = lastId cut.before
  earlier : ∀ e ∈ cut.before, e.stop ≤ start
  later : ∀ e ∈ cut.rest, start ≤ e.start
  view : ∀ a, viewList (cut.before ++ cut.rest) a = map.view a
  entry : ∀ a, start ≤ a → entryAt cut.rest a = (entryAt map.entries a).map (Entry.clipFront start)

theorem entryAt_append_of_stop_le (earlier : ∀ e ∈ l₁, e.stop ≤ a) :
    entryAt (l₁ ++ l₂) a = entryAt l₂ a := by
  rw [entryAt, covering_append, covering_of_stop_le earlier, none_or]
  rfl

/-- Entries of the range itself are not clipped. -/
theorem map_clipFront (later : ∀ e ∈ l, start ≤ e.start) :
    (entryAt l a).map (Entry.clipFront start) = entryAt l a := by
  cases found : entryAt l a with
  | none => rfl
  | some e =>
    have := later e (covering_some found).1
    rw [map_some, Entry.clipFront, if_neg (by omega)]

/-- An entry cut in two stands for the same addresses. -/
theorem viewList_split {m : ℕ} (low : e.start < m) (high : m < e.stop) (id : ℕ) :
    viewList ((e.front m).withId id :: e.back m :: l) a = viewList (e :: l) a := by
  by_cases side : a < m
  · rw [viewList_front side high.le]
    by_cases covers : e.start ≤ a
    · rw [viewList_cons_of_inside covers (by omega), viewList_cons_of_inside covers (by omega)]
    rw [viewList_cons_of_outside (fun mem => covers mem.1),
      viewList_cons_of_outside (fun mem => covers mem.1)]
    refine viewList_cons_of_outside ?_ l
    show ¬ (m ≤ a ∧ a < e.stop)
    omega
  · rw [viewList_cons_of_outside]
    · exact viewList_back low.le (by omega) e.id l
    · show ¬ (e.start ≤ a ∧ a < m)
      omega

theorem VmMap.Inv.clipStart (inv : map.Inv) (start : ℕ) :
    CutAt map start (map.clipStart start) := by
  obtain ⟨answers, hint, changed, denotes, missing⟩ := inv.lookup start
  have distinct := inv.list.distinct
  have list := inv.list
  obtain ⟨before, rest, eq, earlier, ⟨notFound, here, later⟩ | ⟨found, e, rest', rfl, low, high,
    here⟩⟩ := answers
  · have cut : map.clipStart start =
        { found := false, counts := map.counts, hint := hint, before := before, rest := rest } := by
      rw [VmMap.clipStart]
      simp only [notFound, changed, here, eq, Bool.false_eq_true, if_false]
      rw [eq] at distinct
      rw [cutAfter_append distinct]
    rw [cut]
    rw [eq] at list denotes
    refine ⟨list, by rw [eq]; exact List.Subset.refl _, denotes,
      fun _ => (missing notFound).trans here, earlier, fun e mem => (later e mem).le,
      fun a => by rw [VmMap.view, eq], fun a le => ?_⟩
    rw [eq, entryAt_append_of_stop_le (fun e mem => (earlier e mem).trans le),
      map_clipFront fun e mem => (later e mem).le]
  · rw [eq] at list denotes distinct
    have after : ∀ d ∈ rest', e.stop ≤ d.start := list.neighbours.2.2.2.1
    by_cases clips : e.start < start
    · have cut : map.clipStart start =
          { found := true
            counts := { map.counts with
              nentries := map.counts.nentries + 1, nextId := map.counts.nextId + 1 }
            hint := hint
            before := before ++ [(e.front start).withId map.counts.nextId]
            rest := e.back start :: rest' } := by
        rw [VmMap.clipStart]
        simp only [found, changed, here, eq, if_true, getD_some, cutAt_append distinct,
          if_pos clips]
      have inv' := list.splitFront clips high
      rw [append_cons] at inv'
      rw [cut]
      have ids : (before ++ e :: rest').map Entry.id ⊆
          (before ++ [(e.front start).withId map.counts.nextId] ++ e.back start :: rest').map
            Entry.id := by
        intro id mem
        rw [map_append, map_cons, mem_append, mem_cons] at mem
        rw [← append_cons, map_append, map_cons, map_cons, mem_append,
          mem_cons, mem_cons]
        rcases mem with mem | rfl | mem
        · exact .inl mem
        · exact .inr (.inr (.inl rfl))
        · exact .inr (.inr (.inr mem))
      refine ⟨inv', by rw [eq]; exact ids, denotes.mono ids, fun missing => (by cases missing), ?_, ?_,
        fun a => ?_, fun a le => ?_⟩
      · intro d mem
        rcases mem_append.mp mem with mem | last
        · exact earlier d mem
        · obtain rfl := mem_singleton.mp last
          exact le_rfl
      · intro d mem
        rcases mem_cons.mp mem with rfl | mem
        · exact le_rfl
        · have := after d mem
          omega
      · rw [VmMap.view, eq, ← append_cons, viewList_append, viewList_append,
          viewList_split clips high]
      have later : ∀ d ∈ rest', start ≤ d.start := fun d mem => by
        have := after d mem
        omega
      rw [eq, entryAt_append_of_stop_le (fun e mem => (earlier e mem).trans le)]
      by_cases covers : a < e.stop
      · rw [entryAt, entryAt, covering_cons_of_inside (by omega) covers,
          covering_cons_of_inside (e := e.back start) le covers, map_some,
          Entry.clipFront, if_pos clips]
      · rw [entryAt, entryAt, covering_cons_of_outside (fun mem => covers mem.2),
          covering_cons_of_outside (e := e.back start) (fun mem => covers mem.2)]
        exact (map_clipFront later).symm
    · have cut : map.clipStart start =
          { found := true, counts := map.counts, hint := hint, before := before
            rest := e :: rest' } := by
        rw [VmMap.clipStart]
        simp only [found, changed, here, eq, if_true, getD_some, cutAt_append distinct,
          if_neg clips]
      have later : ∀ d ∈ e :: rest', start ≤ d.start := by
        intro d mem
        rcases mem_cons.mp mem with rfl | mem
        · omega
        · have := after d mem
          omega
      rw [cut]
      refine ⟨list, by rw [eq]; exact List.Subset.refl _, denotes, fun missing => (by cases missing),
        earlier, later, fun a => by rw [VmMap.view, eq], fun a le => ?_⟩
      rw [eq, entryAt_append_of_stop_le (fun e mem => (earlier e mem).trans le),
        map_clipFront later]

end Darwin.Vm.Map
