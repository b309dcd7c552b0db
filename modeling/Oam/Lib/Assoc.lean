/-
  Maps as association lists.

  A hash map is the list of its pairs, no key twice (`Keyed`).  `get` after each of the operations, and what each of
  them does to the number of values with a property (`count`).
-/
import Mathlib.Data.List.Basic

namespace Assoc

open List

variable {K V : Type} [DecidableEq K]

/-- The value of the first pair with the key. -/
def get (l : List (K × V)) (k : K) : Option V := (l.find? (·.1 = k)).map (·.2)

/-- Some pair has the key. -/
def contains (l : List (K × V)) (k : K) : Bool := l.any (·.1 = k)

/-- Without the pairs of the key. -/
def remove (l : List (K × V)) (k : K) : List (K × V) := l.filter (·.1 ≠ k)

/-- `f` applied to the values of the key. -/
def adjust (l : List (K × V)) (k : K) (f : V → V) : List (K × V) :=
  l.map fun kv => if kv.1 = k then (kv.1, f kv.2) else kv

/-- The key has this value alone. -/
def put (l : List (K × V)) (k : K) (v : V) : List (K × V) := (k, v) :: remove l k

/-- No key comes twice. -/
def Keyed (l : List (K × V)) : Prop := (l.map Prod.fst).Nodup

/-- How many values meet `p`. -/
def count (p : V → Bool) (l : List (K × V)) : Nat := l.countP fun kv => p kv.2

@[simp] theorem get_nil (k : K) : get ([] : List (K × V)) k = none := rfl

omit [DecidableEq K] in
/-- What is looked up is in the list. -/
theorem mem_of_lookup [BEq K] [LawfulBEq K] {l : List (K × V)} {k : K} {v : V} (h : l.lookup k = some v) :
    (k, v) ∈ l := by
  obtain ⟨before, after, rfl, -⟩ := lookup_eq_some_iff.mp h
  simp

theorem get_cons (kv : K × V) (l : List (K × V)) (k : K) :
    get (kv :: l) k = if kv.1 = k then some kv.2 else get l k := by
  unfold get
  by_cases h : kv.1 = k
  · simp [h]
  · simp [h]

variable (l : List (K × V))

theorem contains_eq (k : K) : contains l k = (get l k).isSome := by
  induction l with
  | nil => rfl
  | cons kv l ih =>
    rw [get_cons, contains, any_cons, ← contains, ih]
    by_cases h : kv.1 = k <;> simp [h]

/-- A key that is removed is gone, and no other. -/
theorem get_remove (k k' : K) : get (remove l k) k' = if k' = k then none else get l k' := by
  induction l with
  | nil => simp [remove]
  | cons kv l ih =>
    unfold remove at ih ⊢
    by_cases hk : kv.1 = k
    · rw [filter_cons_of_neg (by simpa using hk), ih, get_cons, hk]
      by_cases hk' : k' = k
      · simp [hk']
      · simp [hk', Ne.symm hk']
    · rw [filter_cons_of_pos (by simpa using hk), get_cons, get_cons, ih]
      by_cases hk' : kv.1 = k'
      · subst hk'
        simp [hk]
      · simp [hk']

/-- A key that is put has the new value, and no other changes. -/
theorem get_put (k : K) (v : V) (k' : K) : get (put l k v) k' = if k' = k then some v else get l k' := by
  rw [put, get_cons, get_remove]
  by_cases hk : k' = k
  · rw [if_pos hk.symm, if_pos hk]
  · rw [if_neg (Ne.symm hk), if_neg hk, if_neg hk]

/-- Adjusting a key changes its value alone. -/
theorem get_adjust (k : K) (f : V → V) (k' : K) :
    get (adjust l k f) k' = if k' = k then (get l k').map f else get l k' := by
  induction l with
  | nil => simp [adjust]
  | cons kv l ih =>
    unfold adjust at ih ⊢
    rw [map_cons, get_cons, get_cons, ih]
    by_cases hk : kv.1 = k
    · rw [if_pos hk]
      by_cases hk' : kv.1 = k'
      · rw [if_pos hk', if_pos hk', if_pos (hk'.symm.trans hk)]
        rfl
      · rw [if_neg hk', if_neg hk']
    · rw [if_neg hk]
      by_cases hk' : kv.1 = k'
      · rw [if_pos hk', if_pos hk', if_neg (fun h => hk (hk'.trans h))]
      · rw [if_neg hk', if_neg hk']

variable {l : List (K × V)} {k : K}

theorem notMem_of_get_none (h : get l k = none) : k ∉ l.map Prod.fst := by
  intro hmem
  obtain ⟨kv, hkv, rfl⟩ := mem_map.mp hmem
  have hany : contains l kv.1 := List.any_eq_true.mpr ⟨kv, hkv, by simp⟩
  rw [contains_eq, h] at hany
  cases hany

theorem Keyed.cons (hl : Keyed l) (v : V) (h : get l k = none) : Keyed ((k, v) :: l) :=
  nodup_cons.mpr ⟨notMem_of_get_none h, hl⟩

theorem Keyed.remove (hl : Keyed l) (k : K) : Keyed (remove l k) :=
  List.Nodup.sublist (filter_sublist.map _) hl

theorem Keyed.adjust (hl : Keyed l) (k : K) (f : V → V) : Keyed (adjust l k f) := by
  have hkeys : (Assoc.adjust l k f).map Prod.fst = l.map Prod.fst := by
    unfold Assoc.adjust
    rw [map_map]
    refine map_congr_left ?_
    intro kv _
    show (if kv.1 = k then (kv.1, f kv.2) else kv).1 = kv.1
    split <;> rfl
  unfold Keyed
  rw [hkeys]
  exact hl

omit [DecidableEq K] in
theorem count_cons (p : V → Bool) (kv : K × V) (l : List (K × V)) : count p (kv :: l) = count p l + (p kv.2).toNat := by
  unfold count
  rw [countP_cons]
  cases p kv.2 <;> rfl

theorem remove_of_notMem (h : k ∉ l.map Prod.fst) : remove l k = l := by
  unfold remove
  rw [filter_eq_self]
  intro kv hkv
  rw [decide_eq_true_iff]
  rintro rfl
  exact h (mem_map_of_mem hkv)

theorem adjust_of_notMem (f : V → V) (h : k ∉ l.map Prod.fst) : adjust l k f = l := by
  unfold adjust
  refine (map_congr_left ?_).trans (List.map_id l)
  intro kv hkv
  refine if_neg ?_
  rintro rfl
  exact h (mem_map_of_mem hkv)

/-- Removing a key takes its value from the count. -/
theorem count_remove (p : V → Bool) {v : V} (hl : Keyed l) (h : get l k = some v) :
    count p (remove l k) + (p v).toNat = count p l := by
  induction l with
  | nil => cases h
  | cons kv l ih =>
    obtain ⟨hnot, hl⟩ := nodup_cons.mp hl
    rw [get_cons] at h
    by_cases hk : kv.1 = k
    · subst hk
      rw [if_pos rfl] at h
      have hrest : remove (kv :: l) kv.1 = l := by
        rw [remove, filter_cons_of_neg (by simp), ← remove, remove_of_notMem hnot]
      rw [hrest, count_cons, Option.some.inj h]
    · rw [if_neg hk] at h
      have hrest : remove (kv :: l) k = kv :: remove l k := by
        rw [remove, filter_cons_of_pos (by simpa using hk), ← remove]
      rw [hrest, count_cons, count_cons, ← ih hl h]
      omega

/-- Adjusting a key counts its new value for the old one. -/
theorem count_adjust (p : V → Bool) (f : V → V) {v : V} (hl : Keyed l) (h : get l k = some v) :
    count p (adjust l k f) + (p v).toNat = count p l + (p (f v)).toNat := by
  induction l with
  | nil => cases h
  | cons kv l ih =>
    obtain ⟨hnot, hl⟩ := nodup_cons.mp hl
    rw [get_cons] at h
    by_cases hk : kv.1 = k
    · subst hk
      rw [if_pos rfl] at h
      have hrest : adjust (kv :: l) kv.1 f = (kv.1, f kv.2) :: l := by
        rw [adjust, map_cons, if_pos rfl, ← adjust, adjust_of_notMem f hnot]
      rw [hrest, count_cons, count_cons, Option.some.inj h]
      show count p l + (p (f v)).toNat + (p v).toNat = count p l + (p v).toNat + (p (f v)).toNat
      omega
    · rw [if_neg hk] at h
      have hrest : adjust (kv :: l) k f = kv :: adjust l k f := by
        rw [adjust, map_cons, if_neg hk, ← adjust]
      have := ih hl h
      rw [hrest, count_cons, count_cons]
      omega

end Assoc
