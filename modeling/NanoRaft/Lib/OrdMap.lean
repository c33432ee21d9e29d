import Mathlib.Tactic

/-!
# Ordered maps

The ordered associative container behind `std::map` and behind a leveldb table: the
entries of an `OrdMap` are kept in strictly increasing key order, so iterating over
`toList` is the iteration order of the container and a key occurs once.

The facts the clients use are the `find?_*` equations, which describe every operation by
its effect on lookups, and `mem_toList_iff`, which turns an iteration into lookups.
-/

/-- A finite map whose entries are listed in strictly increasing key order. -/
structure OrdMap (K V : Type*) [LinearOrder K] where
  toList : List (K × V)
  sorted : (toList.map Prod.fst).Pairwise (· < ·)

namespace OrdMap

variable {K V : Type*} [LinearOrder K]

/-- The value at a key. -/
def findList (k : K) : List (K × V) → Option V
  | [] => none
  | (k', v) :: l => if k = k' then some v else findList k l

/-- Insert at the place of the key, replacing an equal one. -/
def insertList (k : K) (v : V) : List (K × V) → List (K × V)
  | [] => [(k, v)]
  | (k', v') :: l =>
    if k < k' then (k, v) :: (k', v') :: l
    else if k = k' then (k, v) :: l
    else (k', v') :: insertList k v l

theorem mem_keys_insertList {k x : K} {v : V} {l : List (K × V)}
    (h : x ∈ (insertList k v l).map Prod.fst) : x = k ∨ x ∈ l.map Prod.fst := by
  induction l with
  | nil => simpa [insertList] using h
  | cons p l ih =>
    obtain ⟨k', v'⟩ := p
    simp only [insertList] at h
    split_ifs at h with h1 h2
    · simpa using h
    · simp only [List.map_cons, List.mem_cons] at h ⊢
      tauto
    · simp only [List.map_cons, List.mem_cons] at h ⊢
      rcases h with h | h
      · exact Or.inr (Or.inl h)
      · rcases ih h with h' | h'
        · exact Or.inl h'
        · exact Or.inr (Or.inr h')

theorem sorted_insertList {k : K} {v : V} {l : List (K × V)}
    (h : (l.map Prod.fst).Pairwise (· < ·)) :
    ((insertList k v l).map Prod.fst).Pairwise (· < ·) := by
  induction l with
  | nil => simp [insertList]
  | cons p l ih =>
    obtain ⟨k', v'⟩ := p
    rw [List.map_cons, List.pairwise_cons] at h
    simp only [insertList]
    split_ifs with h1 h2
    · simp only [List.map_cons, List.pairwise_cons, List.mem_cons, forall_eq_or_imp]
      exact ⟨⟨h1, fun x hx => lt_trans h1 (h.1 x hx)⟩, h⟩
    · subst h2
      rw [List.map_cons, List.pairwise_cons]
      exact h
    · rw [List.map_cons, List.pairwise_cons]
      -- the new key is larger than the head as well
      refine ⟨fun x hx => ?_, ih h.2⟩
      rcases mem_keys_insertList hx with rfl | hx
      · exact lt_of_le_of_ne (not_lt.mp h1) (Ne.symm h2)
      · exact h.1 x hx

/-! ## Operations -/

/-- The empty map. -/
def empty : OrdMap K V := ⟨[], List.Pairwise.nil⟩

def find? (m : OrdMap K V) (k : K) : Option V := findList k m.toList

def insert (m : OrdMap K V) (k : K) (v : V) : OrdMap K V :=
  ⟨insertList k v m.toList, sorted_insertList m.sorted⟩

/-- Apply `f` to the value at `k`, if there is one. -/
def modify (m : OrdMap K V) (k : K) (f : V → V) : OrdMap K V :=
  ⟨m.toList.map fun p => (p.1, if p.1 = k then f p.2 else p.2), by
    rw [List.map_map]
    exact m.sorted⟩

def erase (m : OrdMap K V) (k : K) : OrdMap K V :=
  ⟨m.toList.filter fun p => p.1 ≠ k,
    m.sorted.sublist (List.Sublist.map _ List.filter_sublist)⟩

def values (m : OrdMap K V) : List V := m.toList.map Prod.snd

def size (m : OrdMap K V) : ℕ := m.toList.length

/-- The entries from key `k` on, in iteration order. -/
def seek (m : OrdMap K V) (k : K) : List (K × V) := m.toList.filter fun p => k ≤ p.1

/-! ## Lookups -/

theorem findList_eq_some {k : K} {v : V} {l : List (K × V)}
    (hs : (l.map Prod.fst).Pairwise (· < ·)) : findList k l = some v ↔ (k, v) ∈ l := by
  induction l with
  | nil => simp [findList]
  | cons p l ih =>
    obtain ⟨k', v'⟩ := p
    rw [List.map_cons, List.pairwise_cons] at hs
    rw [findList, List.mem_cons, Prod.mk.injEq]
    split_ifs with h
    · subst h
      -- the key is not found again behind its place, all keys there being larger
      have hnot : (k, v) ∉ l := fun hm =>
        lt_irrefl k (hs.1 k (List.mem_map.mpr ⟨(k, v), hm, rfl⟩))
      simp [hnot, eq_comm]
    · simp [h, ih hs.2]

/-- Iterating over the entries is looking the keys up. -/
theorem mem_toList_iff {m : OrdMap K V} {k : K} {v : V} :
    (k, v) ∈ m.toList ↔ m.find? k = some v := (findList_eq_some m.sorted).symm

/-- A key that is there is none that is not. -/
theorem ne_of_find? {m : OrdMap K V} {k k' : K} {v : V} (hk : m.find? k = some v)
    (hk' : m.find? k' = none) : k ≠ k' := by
  intro heq
  rw [heq, hk'] at hk
  cases hk

theorem mem_values_iff {m : OrdMap K V} {v : V} :
    v ∈ m.values ↔ ∃ k, m.find? k = some v := by
  rw [values, List.mem_map]
  constructor
  · rintro ⟨⟨k, _⟩, hp, rfl⟩
    exact ⟨k, mem_toList_iff.mp hp⟩
  · rintro ⟨k, hk⟩
    exact ⟨(k, v), mem_toList_iff.mpr hk, rfl⟩

@[simp] theorem find?_insert (m : OrdMap K V) (k k' : K) (v : V) :
    (m.insert k v).find? k' = if k' = k then some v else m.find? k' := by
  show findList k' (insertList k v m.toList) = if k' = k then some v else findList k' m.toList
  induction m.toList with
  | nil => rfl
  | cons p l ih =>
    obtain ⟨a, b⟩ := p
    simp only [insertList, findList]
    split_ifs <;> simp_all [findList]

@[simp] theorem find?_modify (m : OrdMap K V) (k k' : K) (f : V → V) :
    (m.modify k f).find? k' = if k' = k then (m.find? k).map f else m.find? k' := by
  show findList k' (m.toList.map fun p => (p.1, if p.1 = k then f p.2 else p.2))
    = if k' = k then (findList k m.toList).map f else findList k' m.toList
  induction m.toList with
  | nil => simp [findList]
  | cons p l ih =>
    obtain ⟨a, b⟩ := p
    simp only [List.map_cons, findList, ih]
    by_cases hk : k' = a
    · subst hk
      by_cases hk' : k' = k
      · simp [hk']
      · simp [hk']
    · by_cases hk' : k' = k
      · subst hk'
        simp [hk]
      · simp [hk, hk']

@[simp] theorem find?_erase (m : OrdMap K V) (k k' : K) :
    (m.erase k).find? k' = if k' = k then none else m.find? k' := by
  show findList k' (m.toList.filter fun p => p.1 ≠ k)
    = if k' = k then none else findList k' m.toList
  induction m.toList with
  | nil => simp [findList]
  | cons p l ih =>
    obtain ⟨a, b⟩ := p
    by_cases ha : a = k
    · rw [List.filter_cons_of_neg (by simpa using ha), ih]
      by_cases hk : k' = k
      · rw [if_pos hk, if_pos hk]
      · rw [if_neg hk, if_neg hk, findList, if_neg (ha ▸ hk)]
    · rw [List.filter_cons_of_pos (by simpa using ha), findList, findList, ih]
      by_cases hk : k' = a
      · rw [if_pos hk, if_pos hk, if_neg (hk ▸ ha)]
      · rw [if_neg hk, if_neg hk]

/-- Maps with the same lookups are the same: the order leaves no choice. -/
theorem ext_find? {m m' : OrdMap K V} (h : ∀ k, m.find? k = m'.find? k) : m = m' := by
  have hmem : ∀ p, p ∈ m.toList ↔ p ∈ m'.toList := by
    intro p
    rw [mem_toList_iff (m := m), mem_toList_iff (m := m'), h]
  have hs : m.toList.Pairwise fun p p' => p.1 < p'.1 := List.pairwise_map.mp m.sorted
  have hs' : m'.toList.Pairwise fun p p' => p.1 < p'.1 := List.pairwise_map.mp m'.sorted
  have hperm : m.toList.Perm m'.toList := by
    apply (List.perm_ext_iff_of_nodup _ _).mpr hmem
    · exact List.Nodup.of_map _ (m.sorted.imp ne_of_lt)
    · exact List.Nodup.of_map _ (m'.sorted.imp ne_of_lt)
  have hlist : m.toList = m'.toList :=
    hperm.eq_of_pairwise (fun _ _ _ _ hlt hlt' => absurd hlt' (lt_asymm hlt)) hs hs'
  cases m
  cases m'
  congr

/-! ## Sizes and iteration -/

@[simp] theorem size_modify (m : OrdMap K V) (k : K) (f : V → V) :
    (m.modify k f).size = m.size := by
  simp [size, modify]

@[simp] theorem length_values (m : OrdMap K V) : m.values.length = m.size := by
  simp [values, size]

/-- The map is empty if no key is found. -/
theorem size_eq_zero_iff {m : OrdMap K V} : m.size = 0 ↔ ∀ k, m.find? k = none := by
  constructor
  · intro h k
    have hnil : m.toList = [] := List.eq_nil_of_length_eq_zero h
    rw [find?, hnil, findList]
  · intro h
    refine List.length_eq_zero_iff.mpr (List.eq_nil_iff_forall_not_mem.mpr fun p hp => ?_)
    have hfind : m.find? p.1 = some p.2 := mem_toList_iff.mp hp
    rw [h p.1] at hfind
    cases hfind

/-- Erasing a key that is there makes the map smaller. -/
theorem size_erase_lt {m : OrdMap K V} {k : K} {v : V} (h : m.find? k = some v) :
    (m.erase k).size < m.size := by
  show (m.toList.filter fun p => p.1 ≠ k).length < m.toList.length
  refine List.length_filter_lt_length_iff_exists.mpr ⟨(k, v), mem_toList_iff.mpr h, ?_⟩
  simp

/-- The keys that are found are the keys listed. -/
theorem mem_keys_iff {m : OrdMap K V} {k : K} :
    k ∈ m.toList.map Prod.fst ↔ (m.find? k).isSome := by
  rw [List.mem_map, Option.isSome_iff_exists]
  constructor
  · rintro ⟨⟨_, v⟩, hp, rfl⟩
    exact ⟨v, mem_toList_iff.mp hp⟩
  · rintro ⟨v, hv⟩
    exact ⟨(k, v), mem_toList_iff.mpr hv, rfl⟩

theorem nodup_keys (m : OrdMap K V) : (m.toList.map Prod.fst).Nodup :=
  m.sorted.imp fun h => ne_of_lt h

/-- The size is the length of any list of the keys without repetition. -/
theorem size_eq_length {m : OrdMap K V} {l : List K} (hl : l.Nodup)
    (h : ∀ k, (m.find? k).isSome ↔ k ∈ l) : m.size = l.length := by
  have hperm : (m.toList.map Prod.fst).Perm l :=
    (List.perm_ext_iff_of_nodup m.nodup_keys hl).mpr fun k => mem_keys_iff.trans (h k)
  rw [size, ← hperm.length_eq, List.length_map]

/-- Maps with the same keys have the same size. -/
theorem size_congr {W : Type*} {m : OrdMap K V} {m' : OrdMap K W}
    (h : ∀ k, (m.find? k).isSome ↔ (m'.find? k).isSome) : m.size = m'.size := by
  rw [size_eq_length m'.nodup_keys fun k => (h k).trans mem_keys_iff.symm, List.length_map, size]

/-- A test that one key's value passes, and no other's, is passed once. -/
theorem countP_values_eq_one {m : OrdMap K V} {f : V → Bool} {k : K} {v : V}
    (hk : m.find? k = some v) (h : ∀ k' v', m.find? k' = some v' → (f v' = true ↔ k' = k)) :
    m.values.countP f = 1 := by
  have hkeys : m.values.countP f = (m.toList.map Prod.fst).count k := by
    rw [values, List.countP_map, List.count, List.countP_map]
    refine List.countP_congr fun p hp => ?_
    rw [Function.comp_apply, Function.comp_apply, beq_iff_eq]
    exact h p.1 p.2 (mem_toList_iff.mp hp)
  rw [hkeys]
  have hmem : k ∈ m.toList.map Prod.fst :=
    mem_keys_iff.mpr (Option.isSome_iff_exists.mpr ⟨v, hk⟩)
  exact List.count_eq_one_of_mem m.nodup_keys hmem

/-- A key above all others is inserted at the end. -/
theorem toList_insert_of_lt {m : OrdMap K V} {k : K} {v : V}
    (h : ∀ p ∈ m.toList, p.1 < k) : (m.insert k v).toList = m.toList ++ [(k, v)] := by
  show insertList k v m.toList = _
  generalize m.toList = l at h
  induction l with
  | nil => rfl
  | cons p l ih =>
    have hlt : p.1 < k := h p List.mem_cons_self
    rw [insertList, if_neg (not_lt_of_gt hlt), if_neg (ne_of_gt hlt),
      ih fun q hq => h q (List.mem_cons_of_mem p hq), List.cons_append]

/-- Inserting forgets no key. -/
theorem size_le_size_insert (m : OrdMap K V) (k : K) (v : V) : m.size ≤ (m.insert k v).size := by
  show m.toList.length ≤ (insertList k v m.toList).length
  induction m.toList with
  | nil => exact Nat.zero_le _
  | cons p l ih =>
    rw [insertList]
    split_ifs with h1 h2
    · exact Nat.le_succ _
    · exact le_refl _
    · exact Nat.succ_le_succ ih

/-- Inserting adds one key at most. -/
theorem size_insert_le (m : OrdMap K V) (k : K) (v : V) : (m.insert k v).size ≤ m.size + 1 := by
  show (insertList k v m.toList).length ≤ m.toList.length + 1
  induction m.toList with
  | nil => exact le_refl _
  | cons p l ih =>
    rw [insertList]
    split_ifs with h1 h2
    · exact le_refl _
    · exact Nat.le_succ _
    · exact Nat.succ_le_succ ih

end OrdMap
