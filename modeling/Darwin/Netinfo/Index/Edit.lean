import Darwin.Netinfo.Index.Change

/-!
# Edits seen by the index manager

The index manager is told of an edit by the names and the values of properties alone.  It follows
the values of the first property of a name as long as there is no other of this name and no value
is in a property twice.

## Main definitions

* `Request.touched`, `Request.NamesOnce`, `Request.ValuesOnce` - which names a request is about, and
  what makes the index manager follow it

## Main results

* `Edit.patches` - the calls of an edit as one patch
* `Edit.follows` - the patch leads from the old values to the new ones
-/

namespace Darwin.Netinfo

open Index

/-- The names of the properties that a request takes away or puts in. -/
def Request.touched (props : List Property) : Request → List Name
  | .write _ new => props.map (·.name) ++ new.map (·.name)
  | .createprop _ prop _ => [prop.name]
  | .renameprop _ i name => (props[i]?.map (·.name)).toList ++ [name]
  | .destroyprop _ i => (props[i]?.map (·.name)).toList
  | .writeprop _ i _ => (props[i]?.map (·.name)).toList
  | .createname _ i _ _ => (props[i]?.map (·.name)).toList
  | .destroyname _ i _ => (props[i]?.map (·.name)).toList
  | .writename _ i _ _ => (props[i]?.map (·.name)).toList
  | .create _ _ _ _ => []
  | .destroy _ _ => []

/-- The request does not give the directory a second property of the name. -/
def Request.NamesOnce (key : Name) (props : List Property) : Request → Prop
  | .write _ new => (named key new).length ≤ 1
  | .createprop _ prop _ => prop.name = key → named key props = []
  | .renameprop _ i name => name = key → named key (props.eraseIdx i) = []
  | _ => True

/-- The request does not take away a value that the property has twice. -/
def Request.ValuesOnce (key : Name) (props : List Property) : Request → Prop
  | .write _ _ => (valuesOf key props).Nodup
  | .destroyprop _ i => ∀ prop, props[i]? = some prop → prop.name = key → prop.values.Nodup
  | .renameprop _ i _ => ∀ prop, props[i]? = some prop → prop.name = key → prop.values.Nodup
  | .writeprop _ i _ => ∀ prop, props[i]? = some prop → prop.name = key → prop.values.Nodup
  | .destroyname _ i j => ∀ prop saved, props[i]? = some prop → prop.name = key →
    prop.values[j]? = some saved → saved ∉ prop.values.eraseIdx j
  | .writename _ i j _ => ∀ prop saved, props[i]? = some prop → prop.name = key →
    prop.values[j]? = some saved → saved ∉ prop.values.eraseIdx j
  | _ => True

/-- What the index manager needs of a request and the properties before it, for a name that the
request touches. -/
structure Request.Followed (r : Request) (key : Name) (old : List Property) : Prop where
  single : (named key old).length ≤ 1
  names : r.NamesOnce key old
  values : r.ValuesOnce key old

end Darwin.Netinfo

namespace Darwin.Netinfo.Index

open List

variable {obj : Object} {r : Request} {old new props before after : List Property}
  {calls : List ImCall} {key : Name} {prop prop' : Property} {held : List Holder}
  {picks : ℕ → ℕ → Bool}

/-- Several calls as one patch. -/
def callsPatch (key : Name) : List ImCall → Patch
  | [] => ⟨[], [], id⟩
  | call :: calls => (callPatch key call).andThen (callsPatch key calls)

/-- Nothing is deleted after an insertion. -/
def Orderly (key : Name) : List ImCall → Prop
  | [] => True
  | call :: calls =>
    ((callPatch key call).inserts = [] ∨ (callsPatch key calls).deletes = []) ∧ Orderly key calls

theorem calls_patches (distinct : Distinct held)
    (about : ∀ call ∈ calls, callObject call = some obj) (order : ∀ key, Orderly key calls) :
    ∃ g, calls.foldl (imCall picks) held = held.map g ∧
      ∀ h, Patches obj.parent obj.id.object (callsPatch h.propname calls) h (g h) := by
  induction calls generalizing held with
  | nil => exact ⟨id, map_id held |>.symm, fun h => patches_nothing rfl rfl rfl⟩
  | cons call calls ih =>
    obtain ⟨g, same, patches⟩ := @imCall_eq_map held obj call picks distinct
      (about call mem_cons_self)
    obtain ⟨g', same', patches'⟩ := ih (distinct.map fun h => (patches h).key)
      (fun call mem => about call (mem_cons_of_mem _ mem)) fun key => (order key).2
    refine ⟨g' ∘ g, ?_, fun h => ?_⟩
    · rw [foldl_cons, same, same', map_map]
    have name : (g h).propname = h.propname := congrArg Prod.snd (patches h).key
    have second := patches' (g h)
    rw [name] at second
    exact (patches h).andThen second (order h.propname).1

theorem inserts_destroyList {vals : List Name} {key' : Name} :
    (callPatch key (.destroyList obj key' vals)).inserts = [] := by
  rw [callPatch]
  split
  · rfl
  · rfl

theorem inserts_destroy {val : Name} {key' : Name} {place : ℕ} :
    (callPatch key (.destroy obj key' val place)).inserts = [] := by
  rw [callPatch]
  split
  · rfl
  · rfl

/-- The calls of an edit are about its directory. -/
theorem Edit.about (edit : Edit obj r old new calls) :
    ∀ call ∈ calls, callObject call = some obj := by
  intro call mem
  cases edit with
  | write | renameprop | writeprop | writename =>
    rcases mem_cons.mp mem with rfl | mem
    · rfl
    · rw [mem_singleton.mp mem]
      rfl
  | createprop | destroyprop | createname | destroyname =>
    rw [mem_singleton.mp mem]
    rfl

/-- The calls of an edit are one patch of every holder of the parent. -/
theorem Edit.patches (edit : Edit obj r old new calls) (distinct : Distinct held) :
    ∃ g, calls.foldl (imCall picks) held = held.map g ∧
      ∀ h, Patches obj.parent obj.id.object (callsPatch h.propname calls) h (g h) := by
  apply calls_patches distinct
  · exact edit.about
  intro key
  cases edit with
  | write => exact ⟨.inl rfl, .inr rfl, trivial⟩
  | renameprop => exact ⟨.inl inserts_destroyList, .inr rfl, trivial⟩
  | writeprop => exact ⟨.inl inserts_destroyList, .inr rfl, trivial⟩
  | writename => exact ⟨.inl inserts_destroy, .inr rfl, trivial⟩
  | createprop => exact ⟨.inr rfl, trivial⟩
  | destroyprop => exact ⟨.inr rfl, trivial⟩
  | createname => exact ⟨.inr rfl, trivial⟩
  | destroyname => exact ⟨.inr rfl, trivial⟩

/-! ## Properties of one name -/

section Named

theorem propFind_eq_head? : propFind props key = (named key props).head? :=
  List.head?_filter.symm

theorem firstValues_eq : firstValues key props =
    ((named key props).head?.map (·.values)).getD [] := by
  rw [firstValues, propFind_eq_head?]

theorem firstValues_of_named_nil (none : named key props = []) : firstValues key props = [] := by
  rw [firstValues_eq, none]
  rfl

theorem named_mid : named key (before ++ prop :: after) =
    named key before ++ ((if prop.name = key then [prop] else []) ++ named key after) := by
  rw [named_append, named_cons]

/-- Where a property is the only one of its name. -/
theorem named_of_single (single : (named key (before ++ prop :: after)).length ≤ 1)
    (same : prop.name = key) : named key before = [] ∧ named key after = [] := by
  rw [named_mid, if_pos same, length_append, length_append, length_singleton] at single
  constructor
  · apply eq_nil_of_length_eq_zero
    omega
  · apply eq_nil_of_length_eq_zero
    omega

theorem firstValues_mid (none : named key before = []) (same : prop.name = key) :
    firstValues key (before ++ prop :: after) = prop.values := by
  rw [firstValues_eq, named_mid, none, if_pos same]
  rfl

theorem named_skip (other : prop.name ≠ key) :
    named key (before ++ prop :: after) = named key (before ++ after) := by
  rw [named_mid, if_neg other, nil_append, named_append]

theorem named_replace (other : prop.name ≠ key) (other' : prop'.name ≠ key) :
    named key (before ++ prop' :: after) = named key (before ++ prop :: after) := by
  rw [named_skip other, named_skip other']

/-- Where there is one property of the name at most, its values are those that are found. -/
theorem valuesOf_of_single (single : (named key props).length ≤ 1) :
    valuesOf key props = firstValues key props := by
  rw [valuesOf, firstValues_eq]
  cases found : named key props with
  | nil => rfl
  | cons prop rest =>
    rw [found, length_cons] at single
    have none : rest = [] := eq_nil_of_length_eq_zero (by omega)
    rw [none, flatMap_singleton]
    rfl

theorem getElem?_mid {α : Type*} {l m : List α} {a : α} : (l ++ a :: m)[l.length]? = some a := by
  rw [List.getElem?_append_right le_rfl, Nat.sub_self]
  rfl

theorem named_eq_nil_iff : named key props = [] ↔ key ∉ props.map (·.name) := by
  rw [named, filter_eq_nil_iff, mem_map]
  constructor
  · rintro none ⟨prop, mem, same⟩
    exact none prop mem (decide_eq_true same)
  · intro absent prop mem same
    exact absent ⟨prop, mem, of_decide_eq_true same⟩

end Named

/-! ## The values of a name -/

section Values

/-- A patch leads from some values to others: it deletes values that are there, once each. -/
structure Patch.Leads (p : Patch) (old new : List Name) : Prop where
  nodup : p.deletes.Nodup
  there : ∀ v ∈ p.deletes, v ∈ old
  values : ∀ v, v ∈ new ↔ v ∈ old ∧ v ∉ p.deletes ∨ v ∈ p.inserts

variable {p : Patch} {vals vals' : List Name}

theorem Patch.Leads.still : Patch.Leads ⟨[], [], id⟩ vals vals where
  nodup := nodup_nil
  there := fun v mem => absurd mem not_mem_nil
  values := by simp

/-- Everything is deleted, and all new values are inserted. -/
theorem Patch.Leads.whole (deletes : p.deletes = vals) (inserts : p.inserts = vals')
    (nodup : vals.Nodup) : p.Leads vals vals' where
  nodup := by rwa [deletes]
  there := by
    rw [deletes]
    exact fun v mem => mem
  values := by
    intro v
    rw [deletes, inserts]
    tauto

/-- A value that is there once is deleted, and those that are inserted take its place. -/
theorem Patch.Leads.exchange {v : Name} {l m : List Name} (deletes : p.deletes = [v])
    (once : v ∉ l ++ m) : p.Leads (l ++ v :: m) (l ++ (p.inserts ++ m)) where
  nodup := by
    rw [deletes]
    exact nodup_singleton _
  there := by
    intro u mem
    rw [deletes, mem_singleton] at mem
    exact mem ▸ mem_append_cons_self
  values := by
    intro u
    rw [mem_append, not_or] at once
    rw [deletes, mem_singleton, mem_append, mem_append, mem_append, mem_cons]
    by_cases same : u = v
    · subst same
      simp only [once.1, once.2, not_true_eq_false, false_or, or_false, and_false]
    · simp only [same, not_false_eq_true, false_or, and_true]
      rw [or_assoc, or_comm (b := u ∈ m)]

theorem callsPatch_singleton {call : ImCall} : callsPatch key [call] =
    ⟨(callPatch key call).deletes, (callPatch key call).inserts, (callPatch key call).entries⟩ := by
  simp [callsPatch, Patch.andThen]

theorem callsPatch_pair {call call' : ImCall} : callsPatch key [call, call'] =
    (callPatch key call).andThen (callPatch key call') := by
  simp [callsPatch, Patch.andThen]

/-- The values of one property are changed. -/
theorem Patch.Leads.replace (single : (named key (before ++ prop :: after)).length ≤ 1)
    (same : prop.name = key) (leads : p.Leads prop.values vals) :
    p.Leads (firstValues key (before ++ prop :: after))
      (firstValues key (before ++ { prop with values := vals } :: after)) := by
  obtain ⟨none, -⟩ := named_of_single single same
  have first : firstValues key (before ++ { prop with values := vals } :: after) = vals :=
    firstValues_mid none same
  rw [firstValues_mid none same, first]
  exact leads

theorem mem_touched {l m : List Property} :
    key ∈ ((l ++ prop :: m)[l.length]?.map (·.name)).toList ↔ prop.name = key := by
  rw [getElem?_mid]
  exact mem_singleton.trans eq_comm

/-- A name that is not touched is not patched, and has the same properties as before. -/
theorem Edit.untouched (edit : Edit obj r old new calls) (untouched : key ∉ r.touched old) :
    callsPatch key calls = ⟨[], [], id⟩ ∧ named key new = named key old := by
  cases edit with
  | write id =>
    rw [Request.touched, mem_append, not_or] at untouched
    have none := named_eq_nil_iff.mpr untouched.1
    have none' := named_eq_nil_iff.mpr untouched.2
    rw [callsPatch_pair, callPatch, callPatch, valuesOf, valuesOf, none, none']
    exact ⟨rfl, rfl⟩
  | createprop id place before after prop =>
    have other : prop.name ≠ key := fun same => untouched (mem_singleton.mpr same.symm)
    rw [callsPatch_singleton, callPatch, if_neg other, named_skip other]
    exact ⟨rfl, rfl⟩
  | destroyprop id before after prop =>
    rw [Request.touched, mem_touched] at untouched
    rw [callsPatch_singleton, callPatch, if_neg untouched, named_skip untouched]
    exact ⟨rfl, rfl⟩
  | renameprop id before after prop name =>
    rw [Request.touched, mem_append, mem_touched, mem_singleton, not_or] at untouched
    refine ⟨?_, named_replace untouched.1 (Ne.symm untouched.2)⟩
    rw [callsPatch_pair, callPatch, callPatch, if_neg untouched.1, if_neg (Ne.symm untouched.2)]
    rfl
  | writeprop | createname | destroyname | writename =>
    rw [Request.touched, mem_touched] at untouched
    refine ⟨?_, named_replace untouched untouched⟩
    simp only [callsPatch, callPatch, if_neg untouched]
    rfl

/-- A renaming touches the old name and the new one. -/
theorem renamed {l m : List Property} {name : Name}
    (touched : key ∈ ((l ++ prop :: m)[l.length]?.map (·.name)).toList ++ [name])
    (other : prop.name ≠ key) : name = key := by
  rw [mem_append, mem_touched, mem_singleton] at touched
  exact (touched.resolve_left other).symm

/-- The patch of an edit leads from the values of the first property of a name to those of the first
one afterwards. -/
theorem Edit.follows (edit : Edit obj r old new calls)
    (followed : key ∈ r.touched old → r.Followed key old) :
    (callsPatch key calls).Leads (firstValues key old) (firstValues key new) := by
  by_cases touched : key ∈ r.touched old
  case neg =>
    obtain ⟨told, same⟩ := edit.untouched touched
    rw [told, firstValues_eq, firstValues_eq, same]
    exact .still
  obtain ⟨single, names, values⟩ := followed touched
  cases edit with
  | write id =>
    rw [callsPatch_pair, callPatch, callPatch, ← valuesOf_of_single single,
      ← valuesOf_of_single names]
    exact .whole (append_nil _) rfl values
  | createprop id place before after prop =>
    have same := (mem_singleton.mp touched).symm
    have none := names same
    rw [callsPatch_singleton, callPatch, if_pos same, firstValues_of_named_nil none]
    rw [named_append, append_eq_nil_iff] at none
    rw [firstValues_mid none.1 same]
    exact .whole rfl rfl nodup_nil
  | destroyprop id before after prop =>
    have same := mem_touched.mp touched
    obtain ⟨none, none'⟩ := named_of_single single same
    rw [callsPatch_singleton, callPatch, if_pos same, firstValues_mid none same,
      firstValues_of_named_nil (by rw [named_append, none, none']; rfl)]
    exact .whole rfl rfl (values prop getElem?_mid same)
  | renameprop id before after prop name =>
    rw [callsPatch_pair, callPatch, callPatch]
    by_cases same : prop.name = key
    · obtain ⟨none, none'⟩ := named_of_single single same
      rw [if_pos same, firstValues_mid none same]
      by_cases same' : name = key
      · rw [if_pos same', firstValues_mid none same']
        exact .whole (append_nil _) rfl (values prop getElem?_mid same)
      · rw [if_neg same',
          firstValues_of_named_nil (by rw [named_skip same', named_append, none, none']; rfl)]
        exact .whole (append_nil _) rfl (values prop getElem?_mid same)
    · have same' := renamed touched same
      have none := names same'
      rw [eraseIdx_split] at none
      rw [if_neg same, if_pos same', firstValues_of_named_nil ((named_skip same).trans none)]
      rw [named_append, append_eq_nil_iff] at none
      rw [firstValues_mid none.1 same']
      exact .whole rfl rfl nodup_nil
  | writeprop id before after prop =>
    have same := mem_touched.mp touched
    refine .replace single same ?_
    rw [callsPatch_pair, callPatch, callPatch, if_pos same, if_pos same]
    exact .whole (append_nil _) rfl (values prop getElem?_mid same)
  | createname id before after prop name place =>
    have same := mem_touched.mp touched
    refine .replace single same ?_
    rw [callsPatch_singleton, callPatch, if_pos same]
    refine ⟨nodup_nil, fun v mem => absurd mem not_mem_nil, fun v => ?_⟩
    rw [mem_insertAt, mem_singleton]
    simp only [not_mem_nil, not_false_eq_true, and_true]
    exact or_comm
  | destroyname id before after prop nameIndex saved there =>
    have same := mem_touched.mp touched
    have once := values prop saved getElem?_mid same there
    refine .replace single same ?_
    rw [callsPatch_singleton, callPatch, if_pos same]
    obtain ⟨first, last, whole, rfl⟩ := split_at there
    rw [whole, eraseIdx_split] at once ⊢
    exact .exchange rfl once
  | writename id before after prop nameIndex name saved there =>
    have same := mem_touched.mp touched
    have once := values prop saved getElem?_mid same there
    refine .replace single same ?_
    rw [callsPatch_pair, callPatch, callPatch, if_pos same, if_pos same]
    obtain ⟨first, last, whole, rfl⟩ := split_at there
    rw [whole, eraseIdx_split] at once
    rw [whole, set_split]
    exact .exchange (append_nil _) once

end Values

end Darwin.Netinfo.Index
