/-
  Header multimaps, as their DOCUMENTATION has them: what is held under each name is fixed, the order of the names is not.
  The last section is a map whose removal fills the gap with the last entry.
-/
import Oam.Lib.Bytes
import Mathlib.Data.List.Perm.Basic
import Mathlib.Data.List.Nodup

namespace Headers

open List

/-- The values of a name, in their order. -/
def valuesOf (lines : List (String × Bytes)) (name : String) : List Bytes :=
  (lines.filter (·.1 = name)).map (·.2)

/-- A header map.  `full` says whether a value under the name would be refused. -/
structure HeaderMap (H : Type) where
  empty : H
  iter : H → List (String × Bytes)
  full : H → String → Bool
  append : H → String → Bytes → H
  insert : H → String → Bytes → H
  remove : H → String → H
  iter_empty : iter empty = []
  valuesOf_append : ∀ h name value name', valuesOf (iter (append h name value)) name' =
    valuesOf (iter h) name' ++ if name' = name then [value] else []
  valuesOf_insert : ∀ h name value name', valuesOf (iter (insert h name value)) name' =
    if name' = name then [value] else valuesOf (iter h) name'
  valuesOf_remove : ∀ h name name', valuesOf (iter (remove h name)) name' =
    if name' = name then [] else valuesOf (iter h) name'

namespace HeaderMap

variable {H : Type} (hm : HeaderMap H)

/-- What the map holds under a name. -/
def getAll (h : H) (name : String) : List Bytes := valuesOf (hm.iter h) name

def containsKey (h : H) (name : String) : Bool := !(hm.getAll h name).isEmpty

/-- `try_append`: refused when the map is full. -/
def tryAppend (h : H) (name : String) (value : Bytes) : Option H :=
  if hm.full h name then none else some (hm.append h name value)

/-- `try_insert`, likewise. -/
def tryInsert (h : H) (name : String) (value : Bytes) : Option H :=
  if hm.full h name then none else some (hm.insert h name value)

def removeAll (h : H) (names : List String) : H := names.foldl hm.remove h

@[simp] theorem getAll_insert (h : H) (name : String) (value : Bytes) (name' : String) :
    hm.getAll (hm.insert h name value) name' = if name' = name then [value] else hm.getAll h name' :=
  hm.valuesOf_insert h name value name'

@[simp] theorem getAll_remove (h : H) (name name' : String) :
    hm.getAll (hm.remove h name) name' = if name' = name then [] else hm.getAll h name' :=
  hm.valuesOf_remove h name name'

theorem getAll_removeAll (h : H) (names : List String) (name : String) :
    hm.getAll (hm.removeAll h names) name = if name ∈ names then [] else hm.getAll h name := by
  induction names generalizing h with
  | nil => simp [removeAll]
  | cons first names ih =>
    rw [removeAll, foldl_cons]
    refine (ih (hm.remove h first)).trans ?_
    by_cases hfirst : name = first
    · subst hfirst
      simp
    · simp [hfirst]

end HeaderMap

/-! ## Entries in a vector -/

abbrev Entry := String × List Bytes

/-- The entries, a line for each value. -/
def linesOf (entries : List Entry) : List (String × Bytes) := entries.flatMap fun e => e.2.map fun v => (e.1, v)

/-- Remove the entry of a name and put the last one in its place. -/
def swapRemove (name : String) : List Entry → List Entry
  | [] => []
  | e :: rest =>
    if e.1 = name then
      match rest.getLast? with
      | none => []
      | some last => last :: rest.dropLast
    else e :: swapRemove name rest

/-- Change the values of a name, which is added if it is new. -/
def update (name : String) (values : List Bytes → List Bytes) : List Entry → List Entry
  | [] => [(name, values [])]
  | e :: rest => if e.1 = name then (name, values e.2) :: rest else e :: update name values rest

variable {entries : List Entry}

theorem swapRemove_perm {name : String} (h : (entries.map (·.1)).Nodup) :
    (swapRemove name entries).Perm (entries.filter (·.1 ≠ name)) := by
  induction entries with
  | nil => exact .nil
  | cons e rest ih =>
    obtain ⟨hnot, hrest⟩ := nodup_cons.mp h
    rw [swapRemove]
    by_cases he : e.1 = name
    · have hall : rest.filter (·.1 ≠ name) = rest := by
        refine filter_eq_self.mpr fun x hx => ?_
        have hne : x.1 ≠ e.1 := fun heq => hnot (mem_map.mpr ⟨x, hx, heq⟩)
        simpa [← he] using hne
      rw [if_pos he, filter_cons_of_neg (by simpa using he), hall]
      cases hlast : rest.getLast? with
      | none => rw [getLast?_eq_none_iff.mp hlast]
      | some last =>
        have hsplit := dropLast_append_getLast? last hlast
        refine ((perm_append_singleton last rest.dropLast).symm).trans ?_
        rw [hsplit]
    · rw [if_neg he, filter_cons_of_pos (by simpa using he)]
      exact (ih hrest).cons e

theorem valuesOf_linesOf (entries : List Entry) (name : String) :
    valuesOf (linesOf entries) name = (entries.filter (·.1 = name)).flatMap (·.2) := by
  induction entries with
  | nil => rfl
  | cons e rest ih =>
    have hhead : valuesOf (e.2.map fun v => (e.1, v)) name = if e.1 = name then e.2 else [] := by
      rw [valuesOf, filter_map, map_map]
      by_cases he : e.1 = name <;> simp [Function.comp_def, he]
    have hsplit : valuesOf (linesOf (e :: rest)) name =
        valuesOf (e.2.map fun v => (e.1, v)) name ++ valuesOf (linesOf rest) name := by
      simp [valuesOf, linesOf]
    rw [hsplit, hhead, ih]
    by_cases he : e.1 = name <;> simp [he]

theorem valuesOf_perm {entries entries' : List Entry} (h : entries.Perm entries') (hnodup : (entries'.map (·.1)).Nodup)
    (name : String) : valuesOf (linesOf entries) name = valuesOf (linesOf entries') name := by
  rw [valuesOf_linesOf, valuesOf_linesOf]
  have hperm := h.filter (·.1 = name)
  have hone : (entries'.filter (·.1 = name)).length ≤ 1 := by
    have hsub : ((entries'.filter (·.1 = name)).map (·.1)).Nodup := hnodup.sublist (filter_sublist.map _)
    have hsame : (entries'.filter (·.1 = name)).map (·.1) =
        replicate (entries'.filter (·.1 = name)).length name := by
      refine eq_replicate_iff.mpr ⟨length_map _, fun n hn => ?_⟩
      obtain ⟨e, he, rfl⟩ := mem_map.mp hn
      simpa using (mem_filter.mp he).2
    rw [hsame] at hsub
    exact nodup_replicate.mp hsub
  generalize entries'.filter (·.1 = name) = found' at hperm hone
  cases found' with
  | nil => rw [hperm.eq_nil]
  | cons e rest =>
    obtain rfl : rest = [] := length_eq_zero_iff.mp (by simpa using hone)
    rw [hperm.eq_singleton]

theorem valuesOf_swapRemove (h : (entries.map (·.1)).Nodup) (name name' : String) : valuesOf
    (linesOf (swapRemove name entries)) name' = if name' = name then [] else valuesOf (linesOf entries) name' := by
  have hsub : ((entries.filter (·.1 ≠ name)).map (·.1)).Nodup := h.sublist (filter_sublist.map _)
  rw [valuesOf_perm (swapRemove_perm h) hsub, valuesOf_linesOf, valuesOf_linesOf, filter_filter]
  by_cases hname : name' = name
  · subst hname
    rw [if_pos rfl]
    have hnone : entries.filter (fun e => decide (e.1 = name') && decide (e.1 ≠ name')) = [] := by
      simp
    rw [hnone]
    rfl
  · rw [if_neg hname]
    congr 1
    refine filter_congr fun e _ => ?_
    by_cases he : e.1 = name' <;> simp [he, hname]

theorem nodup_swapRemove (h : (entries.map (·.1)).Nodup) (name : String) :
    ((swapRemove name entries).map (·.1)).Nodup :=
  ((swapRemove_perm h).map _).nodup_iff.mpr (h.sublist (filter_sublist.map _))

theorem map_update (name : String) (values : List Bytes → List Bytes) (entries : List Entry) :
    (update name values entries).map (·.1) =
      if name ∈ entries.map (·.1) then entries.map (·.1) else entries.map (·.1) ++ [name] := by
  induction entries with
  | nil => rfl
  | cons e rest ih =>
    rw [update]
    by_cases he : e.1 = name
    · simp [he]
    · rw [if_neg he, map_cons, ih]
      by_cases hmem : name ∈ rest.map (·.1)
      · simp [hmem]
      · simp [hmem, Ne.symm he]

theorem nodup_update (h : (entries.map (·.1)).Nodup) (name : String)
    (values : List Bytes → List Bytes) : ((update name values entries).map (·.1)).Nodup := by
  rw [map_update]
  split
  · exact h
  · next hmem => simpa using h.concat hmem

theorem valuesOf_update (h : (entries.map (·.1)).Nodup) (name : String)
    (values : List Bytes → List Bytes) (name' : String) : valuesOf (linesOf (update name values entries)) name' =
    if name' = name then values (valuesOf (linesOf entries) name) else valuesOf (linesOf entries) name' := by
  simp only [valuesOf_linesOf]
  induction entries with
  | nil =>
    by_cases hname : name' = name
    · simp [update, hname]
    · simp [update, hname, Ne.symm hname]
  | cons e rest ih =>
    obtain ⟨hnot, hrest⟩ := nodup_cons.mp h
    rw [update]
    by_cases he : e.1 = name
    · have hnone : rest.filter (·.1 = name) = [] := filter_eq_nil_iff.mpr fun x hx => by
        have hne : x.1 ≠ name := fun heq => hnot (mem_map.mpr ⟨x, hx, heq.trans he.symm⟩)
        simpa using hne
      by_cases hname : name' = name
      · subst hname
        simp [he, hnone]
      · simp [he, hname, Ne.symm hname]
    · by_cases hname : name' = name
      · subst hname
        simpa [he] using ih hrest
      · by_cases he' : e.1 = name'
        · simpa [he, he', hname] using ih hrest
        · simpa [he, he', hname] using ih hrest

/-- The map of entries in a vector, indexed by name. -/
def entryMap : HeaderMap { entries : List Entry // (entries.map (·.1)).Nodup } where
  empty := ⟨[], List.nodup_nil⟩
  iter := fun h => linesOf h.1
  full := fun _ _ => false
  append := fun h name value => ⟨update name (· ++ [value]) h.1, nodup_update h.2 name _⟩
  insert := fun h name value => ⟨update name (fun _ => [value]) h.1, nodup_update h.2 name _⟩
  remove := fun h name => ⟨swapRemove name h.1, nodup_swapRemove h.2 name⟩
  iter_empty := rfl
  valuesOf_append := fun h name value name' => by
    rw [valuesOf_update h.2]
    by_cases hname : name' = name
    · subst hname
      simp
    · simp [hname]
  valuesOf_insert := fun h name value name' => valuesOf_update h.2 name _ name'
  valuesOf_remove := fun h name name' => valuesOf_swapRemove h.2 name name'

end Headers
